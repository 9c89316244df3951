import LazyFS.Support.Runs

/-!
Programs over a state that may halt before they return, and their weakest preconditions.

* `Program.wp`: from a state the program returns with `Q`, or halts with `E`; `wp_mono` is the rule
  of consequence, and `wp_bind` to `wp_ite` take a program apart.
* `Program.ofOption`: a partial function on a part of the state, run as a program.
* `Program.all`: the programs of a list, one after the other; `Along` is a guard before each of
  them, and `wp_all` is the rule for an invariant.
* `Program.each`: the same with the results; `wp_each` and `wp_all_run` compare a list of programs
  with a run of a step function, up to where it halts.
-/

namespace Program

variable {ε σ τ α β : Type}

/-- The program returns with `Q` from the state `s`, or halts with `E`. -/
def wp (m : EStateM ε σ α) (Q : α → σ → Prop) (E : ε → σ → Prop) (s : σ) : Prop :=
  match m s with
  | .ok a s' => Q a s'
  | .error e s' => E e s'

variable {Q Q' : α → σ → Prop} {E E' : ε → σ → Prop} {s : σ}

lemma wp_of_ok {m : EStateM ε σ α} {a : α} {s' : σ} (h : wp m Q E s) (hm : m s = .ok a s') :
    Q a s' := by
  rw [wp, hm] at h
  exact h

lemma wp_of_error {m : EStateM ε σ α} {e : ε} {s' : σ} (h : wp m Q E s) (hm : m s = .error e s') :
    E e s' := by
  rw [wp, hm] at h
  exact h

/-- The rule of consequence. -/
lemma wp_mono {m : EStateM ε σ α} (h : wp m Q E s) (hQ : ∀ a s', Q a s' → Q' a s')
    (hE : ∀ e s', E e s' → E' e s') : wp m Q' E' s := by
  rw [wp] at h ⊢
  split
  · rename_i a s' hm
    rw [hm] at h
    exact hQ a s' h
  · rename_i e s' hm
    rw [hm] at h
    exact hE e s' h

/-- Two facts about one program. -/
lemma wp_and {m : EStateM ε σ α} (h : wp m Q E s) (h' : wp m Q' E' s) :
    wp m (fun a s' => Q a s' ∧ Q' a s') (fun e s' => E e s' ∧ E' e s') s := by
  rw [wp] at h h' ⊢
  split
  · rename_i a s' hm
    rw [hm] at h h'
    exact ⟨h, h'⟩
  · rename_i e s' hm
    rw [hm] at h h'
    exact ⟨h, h'⟩

/-- A program that always returns has a property exactly when a condition holds, if each of its
results does. -/
lemma wp_iff {m : EStateM ε σ α} {P : Prop}
    (h : wp m (fun a s' => Q a s' ↔ P) (fun _ _ => False) s) :
    wp m Q (fun _ _ => False) s ↔ P := by
  constructor
  · intro hm
    cases hr : m s with
    | ok a s' => exact (wp_of_ok h hr).mp (wp_of_ok hm hr)
    | error e s' => exact (wp_of_error h hr).elim
  · exact fun hP => wp_mono h (fun _ _ ha => ha.mpr hP) fun _ _ he => he

@[simp] lemma wp_pure (a : α) : wp (pure a) Q E s ↔ Q a s := Iff.rfl

@[simp] lemma wp_bind {m : EStateM ε σ α} {f : α → EStateM ε σ β} {Q : β → σ → Prop} :
    wp (m >>= f) Q E s ↔ wp m (fun a => wp (f a) Q E) E s := by
  simp only [wp, bind, EStateM.bind]
  cases m s with
  | ok a s' => rfl
  | error e s' => rfl

@[simp] lemma wp_get {Q : σ → σ → Prop} : wp (get : EStateM ε σ σ) Q E s ↔ Q s s := Iff.rfl

@[simp] lemma wp_modify {f : σ → σ} {Q : PUnit → σ → Prop} :
    wp (modify f : EStateM ε σ PUnit) Q E s ↔ Q ⟨⟩ (f s) := Iff.rfl

lemma get_bind (f : σ → EStateM ε σ β) (s : σ) : (get >>= f) s = f s s := rfl

lemma wp_ite {c : Prop} [Decidable c] {m m' : EStateM ε σ α} :
    wp (if c then m else m') Q E s ↔ if c then wp m Q E s else wp m' Q E s := by
  split_ifs
  · rfl
  · rfl

/-- A partial function on a part of the state; where it is undefined the program halts with `e`. -/
def ofOption (e : ε) (get : σ → τ) (set : τ → σ → σ) (f : τ → Option (τ × α)) : EStateM ε σ α :=
  fun s => match f (get s) with
    | none => .error e s
    | some (t, a) => .ok a (set t s)

lemma wp_ofOption {e : ε} {get : σ → τ} {set : τ → σ → σ} {f : τ → Option (τ × α)} :
    wp (ofOption e get set f) Q E s
      ↔ (∀ t a, f (get s) = some (t, a) → Q a (set t s)) ∧ (f (get s) = none → E e s) := by
  rw [wp, ofOption]
  cases h : f (get s) with
  | none => simp
  | some r =>
      obtain ⟨t, a⟩ := r
      simp

/-- Why a program did not return, `none` when it did. -/
def halt? : EStateM.Result ε σ α → Option ε
  | .ok _ _ => none
  | .error e _ => some e

/-- The state that a program leaves. -/
def final : EStateM.Result ε σ α → σ
  | .ok _ s => s
  | .error _ s => s

lemma exists_ok_of_halt? {r : EStateM.Result ε σ α} (h : halt? r = none) :
    ∃ a, r = .ok a (final r) := by
  cases r with
  | ok a s => exact ⟨a, rfl⟩
  | error e s => cases h

lemma eq_error_of_halt? {r : EStateM.Result ε σ α} {e : ε} (h : halt? r = some e) :
    r = .error e (final r) := by
  cases r with
  | ok a s => cases h
  | error e' s =>
      cases h
      rfl

/-! ### Lists of programs -/

variable {f : α → EStateM ε σ β}

/-- The programs of a list, one after the other. -/
def all (f : α → EStateM ε σ β) : List α → EStateM ε σ PUnit
  | [] => pure ⟨⟩
  | a :: as => do
      let _ ← f a
      all f as

/-- The guard holds before each program of a list. -/
def Along (f : α → EStateM ε σ β) (ok : σ → α → Prop) : σ → List α → Prop
  | _, [] => True
  | s, a :: as => ok s a ∧ ∀ b s', f a s = .ok b s' → Along f ok s' as

lemma wp_self (m : EStateM ε σ α) (s : σ) :
    wp m (fun a s' => m s = .ok a s') (fun e s' => m s = .error e s') s := by
  rw [wp]
  split
  · assumption
  · assumption

/-- **A list of programs** of which each returns when the guard holds and keeps an invariant, and
stops as `X` or for want of the guard as `D`. -/
theorem wp_all {I : σ → Prop} {ok : σ → α → Prop} {X D : ε → Prop}
    (h : ∀ s a, I s → wp (f a) (fun _ s' => I s' ∧ ok s a) (fun e _ => X e ∨ D e ∧ ¬ ok s a) s)
    {as : List α} (hs : I s) :
    wp (all f as) (fun _ s' => I s' ∧ Along f ok s as)
    (fun e _ => X e ∨ D e ∧ ¬ Along f ok s as) s := by
  induction as generalizing s with
  | nil => exact ⟨hs, trivial⟩
  | cons a as ih =>
      rw [all, wp_bind]
      refine wp_mono (wp_and (h s a hs) (wp_self (f a) s)) ?_ ?_
      · rintro b s' ⟨⟨hI, hok⟩, hrun⟩
        refine wp_mono (ih hI) ?_ ?_
        · rintro u s'' ⟨hI', hA⟩
          refine ⟨hI', hok, fun b' t ht => ?_⟩
          rw [hrun, EStateM.Result.ok.injEq] at ht
          rw [← ht.2]
          exact hA
        · rintro e s'' (hX | ⟨hD, hA⟩)
          · exact .inl hX
          · exact .inr ⟨hD, fun hall => hA (hall.2 b s' hrun)⟩
      · rintro e s' ⟨hX | ⟨hD, hok⟩, -⟩
        · exact .inl hX
        · exact .inr ⟨hD, fun hall => hok hall.1⟩

/-- **A list of programs beside a run**: each program steps along and keeps a relation, or halts as
`K` says; the list runs to the end of the run, or halts in one program after those before it
returned. -/
theorem wp_all_run {step : τ → α → Option τ} {ok : τ → α → Prop} {R : τ → σ → Prop}
    {K : τ → α → ε → σ → Prop}
    (h : ∀ t s a, R t s → ok t a →
      wp (f a) (fun _ s' => ∃ t', step t a = some t' ∧ R t' s') (K t a) s)
    {as : List α} {t : τ} (hR : R t s) (hg : Runs.Guarded step ok t as) :
    wp (all f as) (fun _ s' => ∃ t', Runs.run step t as = some t' ∧ R t' s')
      (fun e s' => ∃ done a rest u s1, as = done ++ a :: rest ∧ Runs.run step t done = some u ∧
        all f done s = .ok ⟨⟩ s1 ∧ f a s1 = .error e s' ∧ K u a e s') s := by
  induction as generalizing s t with
  | nil => exact ⟨t, rfl, hR⟩
  | cons a as ih =>
      rw [all, wp_bind]
      refine wp_mono (wp_and (h t s a hR hg.1) (wp_self (f a) s)) ?_
        fun e s' he => ⟨[], a, as, t, s, rfl, rfl, rfl, he.2, he.1⟩
      rintro b s' ⟨⟨t', hstep, hR'⟩, hfa⟩
      refine wp_mono (ih hR' (hg.2 t' hstep)) ?_ ?_
      · rintro _ s'' ⟨u, hrun, hu⟩
        exact ⟨u, by rw [Runs.run_cons, hstep]; exact hrun, hu⟩
      · rintro e s'' ⟨done, a', rest, u, s1, rfl, hrun, hdone, hhalt, hK⟩
        refine ⟨a :: done, a', rest, u, s1, rfl, by rw [Runs.run_cons, hstep]; exact hrun,
          ?_, hhalt, hK⟩
        simp only [all, bind, EStateM.bind, hfa]
        exact hdone

/-- The programs of a list, one after the other, with their results. -/
def each (f : α → EStateM ε σ β) : List α → EStateM ε σ (List β)
  | [] => pure []
  | a :: as => do
      let b ← f a
      let bs ← each f as
      pure (b :: bs)

/-- The same, for programs and steps that have the same results. -/
theorem wp_each {step : τ → α → Option (τ × β)} {R : τ → σ → Prop} {K : τ → α → ε → σ → Prop}
    (h : ∀ t s a, R t s → wp (f a) (fun b s' => ∃ t', step t a = some (t', b) ∧ R t' s') (K t a) s)
    {as : List α} {t : τ} (hR : R t s) :
    wp (each f as) (fun bs s' => ∃ t', Runs.collect step t as = some (t', bs) ∧ R t' s')
      (fun e s' => ∃ done a rest u bs, as = done ++ a :: rest ∧
        Runs.collect step t done = some (u, bs) ∧
        K u a e s') s := by
  induction as generalizing s t with
  | nil => exact ⟨t, rfl, hR⟩
  | cons a as ih =>
      rw [each, wp_bind]
      refine wp_mono (h t s a hR) ?_ fun e s' he => ⟨[], a, as, t, [], rfl, rfl, he⟩
      rintro b s' ⟨t', hstep, hR'⟩
      rw [wp_bind]
      refine wp_mono (ih hR') ?_ ?_
      · rintro bs s'' ⟨u, hrun, hu⟩
        exact ⟨u, Runs.collect_cons_of_some hstep hrun, hu⟩
      · rintro e s'' ⟨done, a', rest, u, bs, rfl, hrun, hK⟩
        exact ⟨a :: done, a', rest, u, b :: bs, rfl, Runs.collect_cons_of_some hstep hrun, hK⟩

/-- A list of programs that returns. -/
lemma all_cons_ok {a : α} {as : List α} {s s' : σ} (h : all f (a :: as) s = .ok ⟨⟩ s') :
    ∃ b t, f a s = .ok b t ∧ all f as t = .ok ⟨⟩ s' := by
  simp only [all, bind, EStateM.bind] at h
  cases ha : f a s with
  | ok b t =>
      rw [ha] at h
      exact ⟨b, t, rfl, h⟩
  | error e t =>
      rw [ha] at h
      cases h

end Program
