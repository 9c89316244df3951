import Mathlib.Tactic

/-!
Runs of a partial step function: `step s a = none` means that the action `a` stops the program in
the state `s`.

* `Reach`: the states reached from an initial state by actions that a guard allows in the state they
  are taken in; `Reach.invariant` is the induction rule and `Reach.mono` compares two guards.
* `run`: the state after a list of actions; `Reach.of_run` turns an executed run into a reachable
  state.
* `run_of_guarded`: allowed actions run, when what holds lets each of them run.
* `run_both`: the same, for two step functions that stop together or stay related.
* `Along`: what holds in every state along a list of actions; `along_iff_guarded` compares it with a
  guard.
* `trace`: what the steps along a list of actions show, `forall_trace` its rule; `logged` keeps it
  along with the state.
* `collect`: the state after a list of actions, with their results.
* `answers`: the same of a total step function; `collect_refines`: a step function that answers as
  another one does, whatever the list of allowed actions.
-/

namespace Runs

variable {σ τ α : Type*}

/-- The states reachable from `init` when every action taken satisfies the guard `ok` in the
state before it. -/
inductive Reach (step : σ → α → Option σ) (ok : σ → α → Prop) (init : σ → Prop) : σ → Prop where
  | init {s : σ} : init s → Reach step ok init s
  | step {s s' : σ} {a : α} : Reach step ok init s → ok s a → step s a = some s' →
      Reach step ok init s'

variable {step : σ → α → Option σ} {ok : σ → α → Prop} {init : σ → Prop}

/-- What holds initially and survives every allowed step holds in every reachable state. -/
theorem Reach.invariant {P : σ → Prop} (h0 : ∀ s, init s → P s)
    (hs : ∀ s a s', P s → ok s a → step s a = some s' → P s') {s : σ}
    (h : Reach step ok init s) : P s := by
  induction h with
  | init hi => exact h0 _ hi
  | step _ hok he ih => exact hs _ _ _ ih hok he

/-- The state after a list of actions, `none` if one of them stops. -/
def run (step : σ → α → Option σ) : σ → List α → Option σ
  | s, [] => some s
  | s, a :: as => (step s a).bind fun s' => run step s' as

@[simp] lemma run_nil (s : σ) : run step s [] = some s := rfl

lemma run_cons (s : σ) (a : α) (as : List α) :
    run step s (a :: as) = (step s a).bind fun s' => run step s' as := rfl

lemma run_append (s : σ) (as bs : List α) :
    run step s (as ++ bs) = (run step s as).bind fun s' => run step s' bs := by
  induction as generalizing s with
  | nil => rfl
  | cons a as ih =>
      rw [List.cons_append, run_cons, run_cons, Option.bind_assoc]
      exact Option.bind_congr fun s' _ => ih s'

/-- The guard holds before each action of a list. -/
def Guarded (step : σ → α → Option σ) (ok : σ → α → Prop) : σ → List α → Prop
  | _, [] => True
  | s, a :: as => ok s a ∧ ∀ s', step s a = some s' → Guarded step ok s' as

/-- A guard that does not depend on the state. -/
lemma guarded_of_forall {ok : α → Prop} {s : σ} {as : List α} (h : ∀ a ∈ as, ok a) :
    Guarded step (fun _ a => ok a) s as := by
  induction as generalizing s with
  | nil => trivial
  | cons a as ih =>
      exact ⟨h a List.mem_cons_self, fun _ _ => ih fun b hb => h b (List.mem_cons_of_mem _ hb)⟩

/-- A guard with a part that does not depend on the state. -/
lemma Guarded.and {ok' : α → Prop} {s : σ} {as : List α} (h : Guarded step ok s as)
    (h' : ∀ a ∈ as, ok' a) : Guarded step (fun s a => ok s a ∧ ok' a) s as := by
  induction as generalizing s with
  | nil => trivial
  | cons a as ih =>
      exact ⟨⟨h.1, h' a List.mem_cons_self⟩, fun s' hs' =>
        ih (h.2 s' hs') fun b hb => h' b (List.mem_cons_of_mem _ hb)⟩

instance [∀ s a, Decidable (ok s a)] : ∀ (s : σ) (as : List α), Decidable (Guarded step ok s as)
  | _, [] => inferInstanceAs (Decidable True)
  | s, a :: as =>
      have : Decidable (∀ s', step s a = some s' → Guarded step ok s' as) :=
        match hs : step s a with
        | none => isTrue fun _ h => by cases h
        | some t =>
            match instDecidableGuarded t as with
            | isTrue h => isTrue fun s' h' => Option.some.inj h' ▸ h
            | isFalse h => isFalse fun hall => h (hall t rfl)
      inferInstanceAs (Decidable (_ ∧ _))

/-- An executed run whose actions are all allowed ends in a reachable state. -/
lemma Reach.of_run {s s' : σ} (hs : Reach step ok init s) :
    ∀ {as : List α}, Guarded step ok s as → run step s as = some s' → Reach step ok init s' := by
  intro as
  induction as generalizing s with
  | nil =>
      intro _ h
      rw [run_nil, Option.some.injEq] at h
      exact h ▸ hs
  | cons a as ih =>
      intro hg h
      rw [run_cons, Option.bind_eq_some_iff] at h
      obtain ⟨t, ht, h⟩ := h
      exact ih (hs.step hg.1 ht) (hg.2 t ht) h

/-- When what holds lets every allowed action run and survives it, a list of allowed actions runs,
and it holds at the end. -/
theorem run_of_guarded {P : σ → Prop} (hs : ∀ s a, P s → ok s a → ∃ s', step s a = some s' ∧ P s')
    {s : σ} {as : List α} (h : P s) (hg : Guarded step ok s as) :
    ∃ s', run step s as = some s' ∧ P s' := by
  induction as generalizing s with
  | nil => exact ⟨s, rfl, h⟩
  | cons a as ih =>
      obtain ⟨t, ht, hPt⟩ := hs s a h hg.1
      obtain ⟨s', hr, hP⟩ := ih hPt (hg.2 t ht)
      exact ⟨s', by rw [run_cons, ht]; exact hr, hP⟩

/-- Two step functions of which an allowed action stops both or keeps them related: a list of
allowed actions stops both or leaves them related. -/
theorem run_both {step' : τ → α → Option τ} {R : σ → τ → Prop}
    (h : ∀ s t a, R s t → ok s a →
      (step s a = none ∧ step' t a = none) ∨
        ∃ s' t', step s a = some s' ∧ step' t a = some t' ∧ R s' t')
    {s : σ} {t : τ} {as : List α} (hR : R s t) (hg : Guarded step ok s as) :
    (run step s as = none ∧ run step' t as = none) ∨
      ∃ s' t', run step s as = some s' ∧ run step' t as = some t' ∧ R s' t' := by
  induction as generalizing s t with
  | nil => exact .inr ⟨s, t, rfl, rfl, hR⟩
  | cons a as ih =>
      rcases h s t a hR hg.1 with ⟨h1, h2⟩ | ⟨s', t', h1, h2, hR'⟩
      · exact .inl ⟨by rw [run_cons, h1]; rfl, by rw [run_cons, h2]; rfl⟩
      · rw [run_cons, run_cons, h1, h2]
        exact ih hR' (hg.2 s' h1)

/-- `P` holds in every state along a list of actions. -/
def Along (step : σ → α → Option σ) (P : σ → Prop) : σ → List α → Prop
  | s, [] => P s
  | s, a :: as => P s ∧ ∀ s', step s a = some s' → Along step P s' as

/-- It holds in every state that a beginning of the list leads to. -/
lemma along_iff {P : σ → Prop} {s : σ} {as : List α} :
    Along step P s as ↔ ∀ n s', run step s (as.take n) = some s' → P s' := by
  induction as generalizing s with
  | nil =>
      refine ⟨fun h n s' hr => ?_, fun h => h 0 s rfl⟩
      rw [List.take_nil, run_nil, Option.some.injEq] at hr
      exact hr ▸ h
  | cons a as ih =>
      constructor
      · rintro ⟨h, hrest⟩ n s' hr
        cases n with
        | zero =>
            rw [List.take_zero, run_nil, Option.some.injEq] at hr
            exact hr ▸ h
        | succ n =>
            obtain ⟨t, ht, hr⟩ := Option.bind_eq_some_iff.mp hr
            exact ih.mp (hrest t ht) n s' hr
      · intro h
        refine ⟨h 0 s rfl, fun t ht => ih.mpr fun n s' hr => h (n + 1) s' ?_⟩
        rw [List.take_succ_cons, run_cons, ht, Option.bind_some, hr]

/-- A property that a step keeps exactly when a guard allows it holds along a list of actions that
runs exactly when the guard allows all of them. -/
theorem along_iff_guarded {P I : σ → Prop} (hI : ∀ s a s', I s → step s a = some s' → I s')
    (hs : ∀ s a s', I s → P s → step s a = some s' → (P s' ↔ ok s a)) {s s' : σ} {as : List α}
    (hIs : I s) (hP : P s) (hr : run step s as = some s') :
    Along step P s as ↔ Guarded step ok s as := by
  induction as generalizing s with
  | nil => exact ⟨fun _ => trivial, fun _ => hP⟩
  | cons a as ih =>
      obtain ⟨t, ht, hr⟩ := Option.bind_eq_some_iff.mp hr
      have hstep := hs s a t hIs hP ht
      have hIt := hI s a t hIs ht
      have honly : ∀ u, step s a = some u → u = t :=
        fun u hu => by rw [ht, Option.some.injEq] at hu; exact hu.symm
      constructor
      · rintro ⟨-, hrest⟩
        have hPt : P t := (along_iff.mp (hrest t ht)) 0 t rfl
        refine ⟨hstep.mp hPt, fun u hu => ?_⟩
        rw [honly u hu]
        exact (ih hIt hPt hr).mp (hrest t ht)
      · rintro ⟨hok, hrest⟩
        have hPt := hstep.mpr hok
        refine ⟨hP, fun u hu => ?_⟩
        rw [honly u hu]
        exact (ih hIt hPt hr).mpr (hrest t ht)

/-- What the steps along a list of actions show, up to the first one that stops. -/
def trace (step : σ → α → Option σ) (shows : σ → α → List τ) : σ → List α → List τ
  | _, [] => []
  | s, a :: as => shows s a ++ (step s a).elim [] fun s' => trace step shows s' as

/-- What holds survives every step, and bears out what the step shows. -/
theorem forall_trace {shows : σ → α → List τ} {P : σ → Prop} {Q : τ → Prop}
    (hstep : ∀ s a s', P s → step s a = some s' → P s') (hshows : ∀ s a, P s → ∀ x ∈ shows s a, Q x)
    {s : σ} (hs : P s) (as : List α) : ∀ x ∈ trace step shows s as, Q x := by
  induction as generalizing s with
  | nil => exact fun _ hx => (by cases hx)
  | cons a as ih =>
      intro x hx
      rcases List.mem_append.mp hx with hx | hx
      · exact hshows s a hs x hx
      · cases ha : step s a with
        | none =>
            rw [ha] at hx
            cases hx
        | some s' =>
            rw [ha] at hx
            exact ih (hstep s a s' hs ha) x hx

/-- The step function that also keeps what its steps have shown. -/
def logged (step : σ → α → Option σ) (shows : σ → α → List τ) (p : σ × List τ) (a : α) :
    Option (σ × List τ) :=
  (step p.1 a).map fun s' => (s', p.2 ++ shows p.1 a)

/-- What a run keeps is what it shows. -/
lemma run_logged {shows : σ → α → List τ} (s : σ) (l : List τ) (as : List α) :
    run (logged step shows) (s, l) as = (run step s as).map fun s' =>
      (s', l ++ trace step shows s as) := by
  induction as generalizing s l with
  | nil =>
      rw [run_nil, run_nil, Option.map_some, trace, List.append_nil]
  | cons a as ih =>
      rw [run_cons, run_cons, logged, trace]
      cases step s a with
      | none => rfl
      | some s' =>
          dsimp only [Option.map_some, Option.bind_some, Option.elim_some]
          rw [ih, List.append_assoc]

lemma Guarded.logged {shows : σ → α → List τ} {s : σ} {as : List α} (h : Guarded step ok s as) :
    ∀ l, Guarded (logged step shows) (fun p a => ok p.1 a) (s, l) as := by
  induction as generalizing s with
  | nil => exact fun _ => trivial
  | cons a as ih =>
      refine fun l => ⟨h.1, fun p hp => ?_⟩
      obtain ⟨s', hs', rfl⟩ := Option.map_eq_some_iff.mp hp
      exact ih (h.2 s' hs') _

/-- The state after a list of actions, with their results, `none` if one of them stops. -/
def collect (step : σ → α → Option (σ × τ)) : σ → List α → Option (σ × List τ)
  | s, [] => some (s, [])
  | s, a :: as => (step s a).bind fun r => (collect step r.1 as).map fun q => (q.1, r.2 :: q.2)

lemma collect_cons_of_some {step : σ → α → Option (σ × τ)} {s s' s'' : σ} {a : α}
    {as : List α} {b : τ} {bs : List τ} (h : step s a = some (s', b))
    (h' : collect step s' as = some (s'', bs)) :
    collect step s (a :: as) = some (s'', b :: bs) := by
  rw [collect, h, Option.bind_some, h', Option.map_some]

/-- An action that stops stops the list. -/
lemma collect_eq_none {step : σ → α → Option (σ × τ)} {s s' : σ} {a : α}
    {as bs : List α} {l : List τ} (h : collect step s as = some (s', l)) (h' : step s' a = none) :
    collect step s (as ++ a :: bs) = none := by
  induction as generalizing s l with
  | nil =>
      rw [collect, Option.some.injEq, Prod.mk.injEq] at h
      rw [List.nil_append, collect, h.1, h', Option.bind_none]
  | cons c as ih =>
      rw [collect, Option.bind_eq_some_iff] at h
      obtain ⟨r, hr, h⟩ := h
      obtain ⟨q, hq, hrest⟩ := Option.map_eq_some_iff.mp h
      obtain ⟨rfl, -⟩ := Prod.mk.inj hrest
      rw [List.cons_append, collect, hr, Option.bind_some, ih hq, Option.map_none]

/-- The state after a list of actions of a total step function, with its answers. -/
def answers {β ρ : Type*} (spec : τ → β → τ × ρ) : τ → List β → τ × List ρ
  | t, [] => (t, [])
  | t, b :: bs => ((answers spec (spec t b).1 bs).1,
      (spec t b).2 :: (answers spec (spec t b).1 bs).2)

/-- **Refinement.**  When every allowed action runs, answers as its abstraction does and keeps the
states related, a list of allowed actions runs, and its results are the answers to the abstract
ones. -/
theorem collect_refines {β ρ ρ' : Type*} {step : σ → α → Option (σ × ρ)} {spec : τ → β → τ × ρ'}
    {abs : α → β} {observe : α → ρ → ρ'} {ok : σ → α → Prop} {R : σ → τ → Prop}
    (h : ∀ s t a, R s t → ok s a → ∃ s' r, step s a = some (s', r) ∧ R s' (spec t (abs a)).1 ∧
      observe a r = (spec t (abs a)).2)
    {s : σ} {t : τ} {as : List α} (hR : R s t)
    (hg : Guarded (fun s a => (step s a).map Prod.fst) ok s as) :
    ∃ s' rs, collect step s as = some (s', rs) ∧ R s' (answers spec t (as.map abs)).1 ∧
      List.zipWith observe as rs = (answers spec t (as.map abs)).2 := by
  induction as generalizing s t with
  | nil => exact ⟨s, [], rfl, hR, rfl⟩
  | cons a as ih =>
      obtain ⟨u, r, hu, hRu, hr⟩ := h s t a hR hg.1
      obtain ⟨s', rs, hrun, hR', hrs⟩ := ih hRu (hg.2 u (congrArg (Option.map Prod.fst) hu))
      refine ⟨s', r :: rs, collect_cons_of_some hu hrun, hR', ?_⟩
      rw [List.zipWith_cons_cons, hr, hrs]
      rfl

end Runs
