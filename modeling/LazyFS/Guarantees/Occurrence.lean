import LazyFS.Guarantees.ClearFaults

/-!
**The occurrence of a clear fault**.

* `ClearF.sights`: what a clear fault sees of a call, in the order in which it happens: the
  operation of the fault took effect, or the fault fired; `ClearF.wanted` is what it should see.
* `ClearF.Counted`: the calls for which the one counter of the fault gives its occurrence.
* `fires_at_occurrence`: in a run of such calls the fault fires at its occurrence and nowhere else.
* `first_fsync_survives`: a fault before the first `fsync` does not fire there.
-/

namespace LazyFS

open Program Mark

variable {cfg : Config} {rgx : Rgx} {s s' : Lfs} {c : Call}

/-- What a fault sees. -/
inductive Sight where
  | took
  | fired
  deriving DecidableEq

namespace ClearF

variable (F : ClearF)

/-- The fault is about an operation with these names. -/
def About (opname fromPath toPath : String) : Prop := fromPath = F.source ∧ F.Concerns opname toPath

instance (opname fromPath toPath : String) : Decidable (F.About opname fromPath toPath) :=
  inferInstanceAs (Decidable (_ ∧ _))

/-- The fault with another counter. -/
def Like (f : ClearF) : Prop := { f with counter := F.counter } = F

instance (f : ClearF) : Decidable (F.Like f) := inferInstanceAs (Decidable (_ = _))

/-- What the fault sees of an event. -/
def sight : Event → Option Sight
  | .took opname fromPath toPath => if F.About opname fromPath toPath then some .took else none
  | .fired path f => if path = F.source ∧ F.Like f then some .fired else none

/-- What the fault sees of a list of events, the last one first. -/
def sights (l : List Event) : List Sight := l.reverse.filterMap F.sight

/-- The call is about the operation of the fault. -/
def IsCalled (c : Call) : Prop := ∃ n ∈ c.names, F.About n.1 n.2.1 n.2.2

instance (c : Call) : Decidable (F.IsCalled c) := by
  rw [IsCalled]
  cases c.names with
  | none => exact isFalse (by simp)
  | some n => exact decidable_of_iff (F.About n.1 n.2.1 n.2.2) (by simp)

/-- What the fault should see of a call after `k` calls of its operation. -/
def wanted (k : ℕ) (c : Call) : List Sight :=
  if F.IsCalled c then
    if (k : ℤ) + 1 = F.occurrence then
      if F.timing = "before" then [.fired, .took] else [.took, .fired]
    else [.took]
  else []

/-- The one fault of these parameters has the counter `x`. -/
def Tracked (x : ℤ) (m : Clears) : Prop := (m F.source).filter F.Like = [{ F with counter := x }]

variable {F}

lemma like_counter (x : ℤ) : F.Like { F with counter := x } := rfl

lemma like_advance (h : Hook) (f : ClearF) : F.Like (h.advance f) ↔ F.Like f := by
  have hsame : { h.advance f with counter := F.counter } = { f with counter := F.counter } := by
    rw [Hook.advance, ClearF.hook]
    split_ifs
    · rfl
    · rfl
    · rfl
  rw [Like, Like, hsame]

/-! ### Hooks -/

/-- The fault after a hook. -/
lemma Tracked.next {x : ℤ} {m : Clears} (hm : F.Tracked x m) (h : Hook) :
    F.Tracked (if F.About h.opname h.fromPath h.toPath ∧ h.optiming = "before" then x + 1 else x)
      (h.next m) := by
  rw [Tracked, Hook.next]
  by_cases hp : F.source = h.fromPath
  · have hfilter : ((m F.source).map h.advance).filter F.Like
        = ((m F.source).filter F.Like).map h.advance := by
      rw [List.filter_map]
      congr 1
      refine List.filter_congr fun f _ => ?_
      rw [Function.comp, decide_eq_decide]
      exact like_advance h f
    rw [if_pos hp, hfilter, hm, List.map_singleton, Hook.advance, ClearF.hook]
    by_cases hc : F.Concerns h.opname h.toPath
    · rw [if_pos (show Concerns { F with counter := x } h.opname h.toPath from hc)]
      by_cases hb : h.optiming = "before"
      · rw [if_pos hb, if_pos ⟨⟨hp.symm, hc⟩, hb⟩]
      · rw [if_neg hb, if_neg fun hh => hb hh.2]
    · rw [if_neg (show ¬ Concerns { F with counter := x } h.opname h.toPath from hc),
        if_neg fun hh => hc hh.1.2]
  · rw [if_neg hp, if_neg fun hh => hp hh.1.1.symm]
    exact hm

/-- The hook meets the fault. -/
lemma Tracked.met {x : ℤ} {m : Clears} (hm : F.Tracked x m) (h : Hook) :
    (if h.fromPath = F.source then (h.met m).filter F.Like else [])
      = if F.About h.opname h.fromPath h.toPath ∧ F.timing = h.optiming ∧ x = F.occurrence then
        [{ F with counter := x }] else [] := by
  by_cases hp : h.fromPath = F.source
  · rw [if_pos hp, Hook.met, hp, List.filter_filter]
    have hcomm : (m F.source).filter (fun f => decide (F.Like f) && decide (h.Meets f))
        = ((m F.source).filter F.Like).filter h.Meets := by
      rw [List.filter_filter]
      exact List.filter_congr fun f _ => Bool.and_comm _ _
    rw [hcomm, hm, List.filter_singleton]
    have hmeets : h.Meets { F with counter := x } ↔
        F.About h.opname F.source h.toPath ∧ F.timing = h.optiming ∧ x = F.occurrence := by
      rw [Hook.Meets, ClearF.hook]
      by_cases hc : F.Concerns h.opname h.toPath
      · rw [if_pos (show Concerns { F with counter := x } h.opname h.toPath from hc)]
        simp [About, hc]
      · rw [if_neg (show ¬ Concerns { F with counter := x } h.opname h.toPath from hc)]
        simp [About, hc]
    by_cases hx : F.About h.opname F.source h.toPath ∧ F.timing = h.optiming ∧ x = F.occurrence
    · rw [if_pos hx, decide_eq_true (hmeets.mpr hx)]
      rfl
    · rw [if_neg hx, decide_eq_false fun hh => hx (hmeets.mp hh)]
      rfl
  · rw [if_neg hp, if_neg fun hh => hp hh.1.1]

/-- What the fault sees of the faults that a hook meets. -/
lemma sights_fired (path : String) (l : List ClearF) :
    (l.map (Event.fired path)).filterMap F.sight
      = (if path = F.source then l.filter F.Like else []).map fun _ => Sight.fired := by
  by_cases hp : path = F.source
  · rw [if_pos hp]
    induction l with
    | nil => rfl
    | cons f l ih =>
        rw [List.map_cons, List.filterMap_cons, ih, List.filter_cons]
        by_cases hf : F.Like f
        · simp [sight, hp, hf]
        · simp [sight, hp, hf]
  · rw [if_neg hp]
    induction l with
    | nil => rfl
    | cons f l ih =>
        rw [List.map_cons, List.filterMap_cons, ih]
        simp [sight, hp]

/-- A mark about the operation of the fault. -/
def AboutMark (F : ClearF) : Mark → Prop
  | .hook h => F.About h.opname h.fromPath h.toPath
  | .took opname fromPath toPath => F.About opname fromPath toPath

lemma sights_append (l l' : List Event) : F.sights (l ++ l') = F.sights l' ++ F.sights l := by
  rw [sights, List.reverse_append, List.filterMap_append]
  rfl

lemma sights_reverse (l : List Event) : F.sights l.reverse = l.filterMap F.sight := by
  rw [sights, List.reverse_reverse]

/-- Marks that are not about the fault leave it alone, and it sees nothing of them. -/
lemma Tracked.nextAll {x : ℤ} {l : List Mark} (hl : ∀ y ∈ l, ¬ F.AboutMark y) :
    ∀ {m : Clears}, F.Tracked x m → F.Tracked x (nextAll l m) := by
  induction l with
  | nil => exact fun hm => hm
  | cons y l ih =>
      intro m hm
      have hrest := fun z hz => hl z (List.mem_cons_of_mem _ hz)
      cases y with
      | hook h =>
          have hn := hm.next h
          rw [if_neg fun hh => hl _ List.mem_cons_self hh.1] at hn
          exact ih hrest hn
      | took o p q => exact ih hrest hm

lemma sight_tooks {l : List Mark} (hl : ∀ y ∈ l, ¬ F.AboutMark y) :
    (tooks l).filterMap F.sight = [] := by
  rw [List.filterMap_eq_nil_iff]
  intro e he
  obtain ⟨y, hy, hye⟩ := List.mem_filterMap.mp he
  cases y with
  | hook h => cases hye
  | took o p q =>
      cases hye
      exact if_neg (hl _ hy)

/-! ### Counting -/

/-- The counter after `k` calls; `lfs_unlink` counts twice. -/
def counterAfter (F : ClearF) (k : ℕ) : ℤ := if F.op = "unlink" then 2 * k else k

/-- The next call of the operation is judged right from the counter `x`: the fault comes after an
operation other than `unlink`, or before the second `unlink`, or it is neither due nor reached
yet. -/
def JudgedAt (F : ClearF) (x : ℤ) : Prop :=
  (F.timing = "after" ∧ F.op ≠ "unlink") ∨
  (F.timing = "before" ∧ F.op = "unlink" ∧ F.occurrence = 2) ∨
  (if F.timing = "after" ∧ F.op = "unlink" then x + 2 < 2 * F.occurrence else x + 1 < F.occurrence)

/-- The fault counts the call as one: no operation inside the call is about the fault, and if the
call is, it reaches its end and the counter judges it right. -/
def Counted (cfg : Config) (F : ClearF) (s : Lfs) (c : Call) : Prop :=
  (∀ y ∈ c.nestedMarks cfg (c.atLock cfg s).1, ¬ F.AboutMark y) ∧
    (F.IsCalled c → c.reachesEnd cfg (c.atLock cfg s).1 = true ∧
      ∀ f ∈ clearsOf s.faults F.source, F.Like f → F.JudgedAt f.counter)

lemma Tracked.judged {x : ℤ} {m : Clears} (hm : F.Tracked x m)
    (h : ∀ f ∈ m F.source, F.Like f → F.JudgedAt f.counter) : F.JudgedAt x := by
  have hmem : { F with counter := x } ∈ (m F.source).filter F.Like := by
    rw [hm]
    exact List.mem_singleton_self _
  rw [List.mem_filter] at hmem
  exact h _ hmem.1 (like_counter x)

end ClearF

lemma Call.endTiming_eq {c : Call} {n : String × String × String} (h : c.names = some n) :
    c.endTiming = if n.1 = "unlink" then "before" else "after" := by
  cases c <;> cases h <;> rfl

namespace ClearF

variable {F : ClearF}

/-- What a judged call shows: the hook at its start, its effect, and the hook at its end. -/
lemma wanted_eq {k : ℕ} {n : String × String × String} (hc : c.names = some n)
    (hab : F.About n.1 n.2.1 n.2.2) (hj : F.JudgedAt (F.counterAfter k)) :
    F.wanted k c = (if F.timing = "before" ∧ F.counterAfter k = F.occurrence then
      [.fired] else []) ++
      (.took :: if F.timing = c.endTiming ∧ F.counterAfter k + 1 = F.occurrence then
        [.fired] else []) := by
  have hcalled : F.IsCalled c := ⟨n, hc, hab⟩
  have hop : F.op = n.1 := hab.2.1
  rw [wanted, if_pos hcalled, Call.endTiming_eq hc, ← hop]
  rw [counterAfter] at hj ⊢
  rcases hj with ⟨ht, hu⟩ | ⟨ht, hu, hn⟩ | hj
  · rw [if_neg hu, if_neg hu, ht]
    by_cases hk : (k : ℤ) + 1 = F.occurrence
    · simp [hk]
    · simp [hk]
  · rw [if_pos hu, if_pos hu, ht, hn]
    by_cases hk : k = 1
    · subst hk
      rfl
    · rw [if_neg (by omega), if_neg (by omega), if_neg (by omega)]
      rfl
  · by_cases hu : F.op = "unlink"
    · simp only [if_pos hu] at hj ⊢
      by_cases ht : F.timing = "after"
      · rw [if_pos ⟨ht, hu⟩] at hj
        rw [if_neg (by omega), ht]
        simp
      · rw [if_neg fun hh => ht hh.1] at hj
        rw [if_neg (by omega), if_neg (by omega), if_neg (by omega)]
        rfl
    · rw [if_neg fun hh => hu hh.2, if_neg hu] at hj
      rw [if_neg hu, if_neg (by omega), if_neg (by omega), if_neg (by omega)]
      rfl

/-! ### One call -/

/-- The hook at the start of a call. -/
lemma Tracked.began {x : ℤ} (hm : F.Tracked x (clearsOf s.faults)) (hb : Began cfg c.head s s') :
    ∃ evs, s'.trace = evs ++ s.trace ∧
      F.sights evs
        = (if F.IsCalled c ∧ F.timing = "before" ∧ x = F.occurrence then [.fired] else []) ∧
      F.Tracked (if F.IsCalled c then x + 1 else x) (clearsOf s'.faults) := by
  cases hn : c.names with
  | none =>
      have hcalled : ¬ F.IsCalled c := by
        rintro ⟨n, hmem, -⟩
        rw [hn] at hmem
        cases hmem
      rw [Call.head, hn] at hb
      cases hb
      refine ⟨[], rfl, ?_, ?_⟩
      · rw [if_neg fun hh => hcalled hh.1]
        rfl
      · rw [if_neg hcalled]
        exact hm
  | some n =>
      have hcalled : F.IsCalled c ↔ F.About n.1 n.2.1 n.2.2 := by
        rw [IsCalled, hn]
        simp
      rw [Call.head, hn] at hb
      cases hb with
      | some hh =>
          refine ⟨_, hh.fired.trace, ?_, ?_⟩
          · rw [sights_reverse, sights_fired, hm.met]
            dsimp only
            rw [if_congr (and_congr_left' hcalled) rfl rfl]
            split_ifs <;> rfl
          · have hnext := hm.next ⟨n.1, "before", n.2.1, n.2.2⟩
            rw [hh.clears, if_congr hcalled rfl rfl]
            rw [if_congr (and_iff_left rfl) rfl rfl] at hnext
            exact hnext

/-- What a fault sees of the marks of a call. -/
lemma sights_lockedMarks {fs : FS} (hnested : ∀ y ∈ c.nestedMarks cfg fs, ¬ F.AboutMark y)
    (hends : F.IsCalled c → c.reachesEnd cfg fs = true) :
    (tooks (c.lockedMarks cfg fs)).filterMap F.sight = if F.IsCalled c then [.took] else [] := by
  rw [Call.lockedMarks, tooks_append, List.filterMap_append, sight_tooks hnested, List.nil_append]
  cases hn : c.names with
  | none =>
      have hcalled : ¬ F.IsCalled c := by
        rintro ⟨n, hmem, -⟩
        rw [hn] at hmem
        cases hmem
      rw [if_neg hcalled, Call.endMarks, hn, ite_self]
      rfl
  | some n =>
      have hcalled : F.IsCalled c ↔ F.About n.1 n.2.1 n.2.2 := by
        rw [IsCalled, hn]
        simp
      rw [Call.endMarks, hn]
      by_cases hc : F.IsCalled c
      · rw [if_pos (hends hc), if_pos hc]
        simp [ends, tooks, Mark.event, sight, hcalled.mp hc]
      · rw [if_neg hc]
        have hab : ¬ F.About n.1 n.2.1 n.2.2 := fun hh => hc (hcalled.mpr hh)
        split_ifs
        · simp [ends, tooks, Mark.event, sight, hab]
        · rfl

/-- A call that is not about the fault has no end about it. -/
lemma not_aboutMark_endMarks (hc : ¬ F.IsCalled c) : ∀ y ∈ c.endMarks, ¬ F.AboutMark y := by
  intro y hy hab
  cases hn : c.names with
  | none =>
      rw [Call.endMarks, hn] at hy
      exact List.not_mem_nil hy
  | some n =>
      rw [Call.endMarks, hn] at hy
      dsimp only [ends] at hy
      rw [List.mem_cons, List.mem_singleton] at hy
      rcases hy with rfl | rfl
      · exact hc ⟨n, hn, hab⟩
      · exact hc ⟨n, hn, hab⟩

/-- The fault after the end of a call about it. -/
lemma Tracked.ended {x : ℤ} {m : Clears} (hm : F.Tracked x m) (hc : F.IsCalled c) :
    F.Tracked (if c.endTiming = "before" then x + 1 else x) (Mark.nextAll c.endMarks m) := by
  obtain ⟨n, hn, hab⟩ := hc
  have hnext := hm.next ⟨n.1, c.endTiming, n.2.1, n.2.2⟩
  rw [if_congr (and_iff_right hab) rfl rfl] at hnext
  rw [Call.endMarks, hn]
  exact hnext

/-- The end of a call that returns does not meet the fault. -/
lemma Tracked.not_met {x : ℤ} {m : Clears} (hm : F.Tracked x m) (hc : F.IsCalled c)
    (hq : Quiet c.endMarks m) : ¬ (F.timing = c.endTiming ∧ x = F.occurrence) := by
  obtain ⟨n, hn, hab⟩ := hc
  rw [Call.endMarks, hn] at hq
  have hmet := hm.met ⟨n.1, c.endTiming, n.2.1, n.2.2⟩
  rw [if_pos hab.1, hq.1] at hmet
  intro hh
  rw [if_pos ⟨hab, hh⟩] at hmet
  cases hmet

lemma Tracked.exists_nextAll {x : ℤ} {m : Clears} (hm : F.Tracked x m) (l : List Mark) :
    ∃ y, F.Tracked y (Mark.nextAll l m) := by
  induction l generalizing x m with
  | nil => exact ⟨x, hm⟩
  | cons z l ih =>
      cases z with
      | hook h => exact ih (hm.next h)
      | took o p q => exact ih hm

lemma Tracked.unique {x y : ℤ} {m : Clears} (hx : F.Tracked x m) (hy : F.Tracked y m) : x = y := by
  rw [Tracked, hx, List.singleton_inj] at hy
  exact congrArg ClearF.counter hy

/-- A hook at which the fault fires is about it. -/
lemma Tracked.of_fired {x : ℤ} {m : Clears} (hm : F.Tracked x m) {h : Hook} {f : ClearF}
    (hf : f ∈ h.met m) (hp : h.fromPath = F.source) (hlike : F.Like f) :
    F.About h.opname h.fromPath h.toPath ∧ F.timing = h.optiming ∧ x = F.occurrence := by
  have hmet := hm.met h
  rw [if_pos hp] at hmet
  by_contra hcon
  rw [if_neg hcon] at hmet
  have hmem : f ∈ (h.met m).filter F.Like := List.mem_filter.mpr ⟨hf, decide_eq_true hlike⟩
  rw [hmet] at hmem
  exact List.not_mem_nil hmem

/-- A hook of a call about the fault that no operation inside it has is the one at its end. -/
lemma eq_end_of_aboutMark {fs : FS} {done rest : List Mark} {h : Hook}
    (hnested : ∀ y ∈ c.nestedMarks cfg fs, ¬ F.AboutMark y)
    (hm : c.lockedMarks cfg fs = done ++ .hook h :: rest)
    (hab : F.About h.opname h.fromPath h.toPath) :
    ∃ n, c.names = some n ∧ F.About n.1 n.2.1 n.2.2 ∧ h = ⟨n.1, c.endTiming, n.2.1, n.2.2⟩ ∧
      done = c.nestedMarks cfg fs ++ [.took n.1 n.2.1 n.2.2] := by
  -- the hook is the call's own, at its end
  have hnot : Mark.hook h ∉ c.nestedMarks cfg fs := fun hh => hnested _ hh hab
  rw [Call.lockedMarks] at hm
  set own := if c.reachesEnd cfg fs then c.endMarks else [] with hown
  have hin : Mark.hook h ∈ own := by
    have hmem : Mark.hook h ∈ c.nestedMarks cfg fs ++ own := by
      rw [hm]
      exact List.mem_append_right _ List.mem_cons_self
    exact (List.mem_append.mp hmem).resolve_left hnot
  cases hn : c.names with
  | none =>
      rw [hown, Call.endMarks, hn, ite_self] at hin
      exact absurd hin List.not_mem_nil
  | some n =>
      have hown' : own = ends n.1 n.2.1 n.2.2 c.endTiming := by
        rw [hown] at hin ⊢
        split_ifs at hin ⊢ with hr
        · rw [Call.endMarks, hn]
        · exact absurd hin List.not_mem_nil
      rw [hown', ends] at hm
      have hh : h = ⟨n.1, c.endTiming, n.2.1, n.2.2⟩ := by
        rw [hown', ends, List.mem_cons, List.mem_singleton] at hin
        exact Mark.hook.inj (hin.resolve_left (by simp))
      refine ⟨n, rfl, by rw [hh] at hab; exact hab, hh, ?_⟩
      -- it is the last of its marks
      rcases List.append_eq_append_iff.mp hm with ⟨a, ha, ha'⟩ | ⟨a, ha, ha'⟩
      · cases a with
        | nil => simp at ha'
        | cons y a =>
            cases a with
            | nil =>
                rw [List.cons_append, List.cons.injEq] at ha'
                rw [ha, ← ha'.1]
            | cons z a => simp at ha'
      · cases a with
        | nil => simp at ha'
        | cons y a =>
            rw [List.cons_append, List.cons.injEq] at ha'
            refine absurd ?_ hnot
            rw [ha, ha'.1]
            exact List.mem_append_right _ List.mem_cons_self

/-- The reason for which a call stopped: an exception, a crash fault, or a fault that just fired. -/
def Cause (s : Lfs) (e : Halt) (evs : List Event) : Prop :=
  Failed s e ∨ ∃ path f rest, evs = .fired path f :: rest ∧ e = f.halt

/-- What the fault sees before the end of a call. -/
lemma shown_before_end {k : ℕ} (hm : F.Tracked (F.counterAfter k) (clearsOf s.faults)) {fs : FS}
    (hc : (∀ y ∈ c.nestedMarks cfg fs, ¬ F.AboutMark y) ∧ (F.IsCalled c →
      c.reachesEnd cfg fs = true ∧ ∀ f ∈ clearsOf s.faults F.source, F.Like f →
        F.JudgedAt f.counter)) :
    (if F.IsCalled c ∧ F.timing = "before" ∧ F.counterAfter k = F.occurrence then
      [.fired] else []) ++
      (if F.IsCalled c then [.took] else []) <+: F.wanted k c := by
  by_cases hcalled : F.IsCalled c
  · obtain ⟨n, hn, hab⟩ := id hcalled
    rw [wanted_eq hn hab (hm.judged (hc.2 hcalled).2), if_pos hcalled,
      if_congr (and_iff_right hcalled) rfl rfl, List.prefix_append_right_inj]
    exact List.prefix_append [Sight.took] _
  · rw [if_neg hcalled, if_neg fun hh => hcalled hh.1]
    exact List.nil_prefix

/-- The counter after the hook at the start of a call and the one at its end. -/
lemma counterAfter_succ {n : String × String × String} (hn : c.names = some n) (hop : F.op = n.1)
    (k : ℕ) : (if c.endTiming = "before" then F.counterAfter k + 1 + 1 else F.counterAfter k + 1)
      = F.counterAfter (k + 1) := by
  rw [Call.endTiming_eq hn, ← hop, counterAfter, counterAfter]
  by_cases hu : F.op = "unlink"
  · simp only [if_pos hu]
    push_cast
    ring_nf
  · simp only [if_neg hu]
    push_cast
    simp

section Call

variable {k : ℕ} {s1 : Lfs} {evs : List Event} {h : Hook} {e : Halt}
  (hm : F.Tracked (F.counterAfter k) (clearsOf s.faults))

include hm

/-- A call that returns has passed all its marks. -/
lemma Tracked.returned (hc : F.Counted cfg s c) (hb : Began cfg c.head s s1)
    (hp : Passed (c.lockedMarks cfg s1.fs) s1 s') :
    F.Tracked (F.counterAfter (if F.IsCalled c then k + 1 else k)) (clearsOf s'.faults) ∧
      ∃ evs, s'.trace = evs ++ s.trace ∧ F.sights evs = F.wanted k c := by
  obtain ⟨evs, htr, hsights, hm1⟩ := hm.began hb
  rw [Counted, hb.atLock] at hc
  obtain ⟨hnested, hcall⟩ := hc
  have hlocked := sights_lockedMarks hnested fun hh => (hcall hh).1
  have hm2 := hm1.nextAll hnested
  have hq := hp.quiet
  rw [Call.lockedMarks, quiet_append] at hq
  refine ⟨?_, _, hp.trace.trans (by rw [htr, List.append_assoc]), ?_⟩
  · rw [hp.clears, Call.lockedMarks, nextAll_append]
    by_cases hcalled : F.IsCalled c
    · obtain ⟨n, hn, hab⟩ := id hcalled
      rw [if_pos (hcall hcalled).1, if_pos hcalled]
      rw [if_pos hcalled] at hm2
      rw [← counterAfter_succ hn hab.2.1]
      exact hm2.ended hcalled
    · rw [if_neg hcalled]
      rw [if_neg hcalled] at hm2
      split_ifs
      · exact hm2.nextAll (not_aboutMark_endMarks hcalled)
      · exact hm2
  · rw [sights_append, sights_reverse, hsights, hlocked]
    by_cases hcalled : F.IsCalled c
    · -- the end has not met the fault, since the call returned
      obtain ⟨n, hn, hab⟩ := id hcalled
      rw [if_pos hcalled] at hm2
      rw [if_pos (hcall hcalled).1] at hq
      rw [wanted_eq hn hab (hm.judged (hcall hcalled).2), if_neg (hm2.not_met hcalled hq.2),
        if_pos hcalled, if_congr (and_iff_right hcalled) rfl rfl]
    · rw [if_neg hcalled, if_neg fun hh => hcalled hh.1, wanted, if_neg hcalled]
      rfl

/-- A call that stops at its first hook shows what the hook meets, up to the fault that stops it. -/
lemma Tracked.stopped_atHead (hc : F.Counted cfg s c) (hh : c.head = some h)
    (hby : Lfs.HaltedBy h.fromPath (h.met (clearsOf s.faults)) s e s') :
    ∃ evs, s'.trace = evs ++ s.trace ∧ F.sights evs <+: F.wanted k c ∧ Cause s e evs := by
  obtain ⟨done, f, hp, -, -, hstop, htr⟩ := hby.fires
  refine ⟨.fired h.fromPath f :: (done.map (Event.fired h.fromPath)).reverse, htr, ?_,
    .inr ⟨h.fromPath, f, _, rfl, hstop.eq_halt⟩⟩
  refine List.IsPrefix.trans ?_ ((List.prefix_append _ _).trans (shown_before_end hm hc))
  obtain ⟨n, hn, rfl⟩ := Option.map_eq_some_iff.mp hh
  have hcalled : F.IsCalled c ↔ F.About n.1 n.2.1 n.2.2 := by
    rw [IsCalled, hn]
    simp
  have hmet := hm.met ⟨n.1, "before", n.2.1, n.2.2⟩
  dsimp only at hmet hp ⊢
  have hlist : Event.fired n.2.1 f :: (done.map (Event.fired n.2.1)).reverse
      = ((done ++ [f]).map (Event.fired n.2.1)).reverse := by simp
  rw [hlist, sights_reverse, sights_fired, if_congr (and_congr_left' hcalled) rfl rfl]
  have hsub : (if n.2.1 = F.source then (done ++ [f]).filter F.Like else [])
      <+: if n.2.1 = F.source then (Hook.met ⟨n.1, "before", n.2.1, n.2.2⟩
        (clearsOf s.faults)).filter F.Like else [] := by
    split_ifs
    · exact hp.filter _
    · exact List.prefix_rfl
  rw [hmet] at hsub
  refine (hsub.map _).trans ?_
  split_ifs
  · exact List.prefix_rfl
  · exact List.prefix_rfl

omit hm in
lemma sights_fired_cons (path : String) (f : ClearF) (evs : List Event) (l : List Event) :
    F.sights (.fired path f :: (l.reverse ++ evs)) = F.sights evs ++ l.filterMap F.sight ++
      if path = F.source ∧ F.Like f then [.fired] else [] := by
  rw [← List.singleton_append, sights_append, sights_append, sights_reverse]
  congr 1
  rw [sights, List.reverse_singleton, List.filterMap_cons, List.filterMap_nil, sight]
  split_ifs <;> rfl

/-- The marks that were passed before a call stopped show at most what comes before the end. -/
lemma Tracked.shown_passed {fs : FS} (hc : (∀ y ∈ c.nestedMarks cfg fs, ¬ F.AboutMark y) ∧
      (F.IsCalled c → c.reachesEnd cfg fs = true ∧ ∀ f ∈ clearsOf s.faults F.source, F.Like f →
        F.JudgedAt f.counter))
    (hsights : F.sights evs = if F.IsCalled c ∧ F.timing = "before" ∧
      F.counterAfter k = F.occurrence then [.fired] else [])
    {done rest : List Mark} (hdr : c.lockedMarks cfg fs = done ++ rest) :
    F.sights evs ++ (tooks done).filterMap F.sight <+: F.wanted k c := by
  refine List.IsPrefix.trans ?_ (shown_before_end hm hc)
  rw [hsights, ← sights_lockedMarks hc.1 fun hh => (hc.2 hh).1, List.prefix_append_right_inj]
  rw [hdr, tooks_append, List.filterMap_append]
  exact List.prefix_append _ _

/-- A call that stops at one of its marks. -/
lemma Tracked.stopped_inside (hc : F.Counted cfg s c) (hb : Began cfg c.head s s1)
    (hst : Stopped (c.lockedMarks cfg s1.fs) s1 e s') :
    ∃ evs, s'.trace = evs ++ s.trace ∧ F.sights evs <+: F.wanted k c ∧ Cause s e evs := by
  obtain ⟨evs, htr, hsights, hm1⟩ := hm.began hb
  rw [Counted, hb.atLock] at hc
  cases hst with
  | failed done rest hdr hq hf ht =>
      refine ⟨(tooks done).reverse ++ evs, ?_, ?_, .inl (hb.failed hf)⟩
      · rw [ht, htr, List.append_assoc]
      · rw [sights_append, sights_reverse]
        exact hm.shown_passed hc hsights hdr
  | caught done h rest hdr hq hcaught =>
      obtain ⟨f, hf, he, ht⟩ := hcaught.fires
      refine ⟨.fired h.fromPath f :: ((tooks done).reverse ++ evs), ?_, ?_,
        .inr ⟨h.fromPath, f, _, rfl, he⟩⟩
      · rw [ht, htr, List.cons_append, List.append_assoc]
      rw [sights_fired_cons]
      by_cases hlike : h.fromPath = F.source ∧ F.Like f
      · -- the fault fired, so the hook is the one at the end, and the fault was due there
        rw [if_pos hlike]
        obtain ⟨hnested, hcall⟩ := hc
        have hfmem := List.mem_of_mem_head? hf
        obtain ⟨y, hy⟩ := hm1.exists_nextAll done
        obtain ⟨hab, -, -⟩ := hy.of_fired hfmem hlike.1 hlike.2
        obtain ⟨n, hn, habn, rfl, hdn⟩ := eq_end_of_aboutMark hnested hdr hab
        have hcalled : F.IsCalled c := ⟨n, hn, habn⟩
        have hm2 := hm1.nextAll hnested
        rw [if_pos hcalled] at hm2
        rw [hdn, nextAll_append] at hfmem
        obtain ⟨-, hat, hocc⟩ := Tracked.of_fired hm2 hfmem hlike.1 hlike.2
        have hend : (if F.timing = c.endTiming ∧ F.counterAfter k + 1 = F.occurrence then
            [Sight.fired] else []) = [.fired] := if_pos ⟨hat, hocc⟩
        rw [wanted_eq hn habn (hm.judged (hcall hcalled).2), hend, hdn, tooks_append,
          List.filterMap_append, sight_tooks hnested, hsights,
          if_congr (and_iff_right hcalled) rfl rfl]
        simp [tooks, Mark.event, sight, habn]
      · rw [if_neg hlike, List.append_nil]
        exact hm.shown_passed hc hsights hdr

/-- **One call** that the fault counts as one: the fault sees what it should. -/
lemma Tracked.call (hc : F.Counted cfg s c) :
    wp (c.run cfg rgx)
      (fun _ s' => F.Tracked (F.counterAfter (if F.IsCalled c then k + 1 else k))
        (clearsOf s'.faults) ∧
        ∃ evs, s'.trace = evs ++ s.trace ∧ F.sights evs = F.wanted k c)
      (fun e s' => ∃ evs, s'.trace = evs ++ s.trace ∧ F.sights evs <+: F.wanted k c ∧
        Cause s e evs) s := by
  refine wp_mono (c.run_spec s) ?_ fun e s' he => ?_
  · rintro r s' ⟨s1, hb, hp⟩
    exact hm.returned hc hb hp
  · cases he with
    | atStart hf ht => exact ⟨[], ht, List.nil_prefix, .inl hf⟩
    | atHead hh hby => exact hm.stopped_atHead hc hh hby
    | inside hb hst => exact hm.stopped_inside hc hb hst

end Call

/-! ### Runs -/

/-- The fault after a run of calls that it counts. -/
lemma Tracked.run {k : ℕ} {calls : List Call}
    (hm : F.Tracked (F.counterAfter k) (clearsOf s.faults)) {rest : List Call}
    (hc : Along (Call.run cfg rgx) (F.Counted cfg) s (calls ++ rest))
    (hrun : all (Call.run cfg rgx) calls s = .ok ⟨⟩ s') :
    F.Tracked (F.counterAfter (k + calls.countP F.IsCalled)) (clearsOf s'.faults) ∧
      Along (Call.run cfg rgx) (F.Counted cfg) s' rest := by
  induction calls generalizing s k with
  | nil =>
      cases hrun
      exact ⟨hm, hc⟩
  | cons c calls ih =>
      obtain ⟨b, t, hb, hrun⟩ := all_cons_ok hrun
      obtain ⟨hok, hc⟩ := hc
      have hstep := (wp_of_ok (hm.call hok) hb).1
      have hih := ih hstep (hc b t hb) hrun
      rw [List.countP_cons]
      by_cases hcalled : F.IsCalled c
      · rw [if_pos hcalled] at hih
        rw [if_pos (decide_eq_true hcalled)]
        rw [Nat.add_comm (calls.countP _) 1, ← Nat.add_assoc]
        exact hih
      · rw [if_neg hcalled] at hih
        rw [if_neg (by simpa using hcalled)]
        exact hih

/-- **The occurrence of a clear fault**.  In a run of calls that the fault counts, each call shows
the fault what it should, after as many calls of its operation as there were; a call that stops
shows a part of it, and stops for an exception, a crash fault or a fault that just fired. -/
theorem fires_at_occurrence (cfg : Config) (rgx : Rgx) (fs : FS) {faults : Faults} {F : ClearF}
    (hzero : F.counter = 0) (hreg : (clearsOf faults F.source).filter F.Like = [F])
    {done rest : List Call} {c : Call}
    (hcounted : Along (Call.run cfg rgx) (F.Counted cfg) (Lfs.new fs faults) (done ++ c :: rest))
    {s : Lfs} (hrun : all (Call.run cfg rgx) done (Lfs.new fs faults) = .ok ⟨⟩ s) :
    wp (c.run cfg rgx)
      (fun _ s' => ∃ evs, s'.trace = evs ++ s.trace ∧
        F.sights evs = F.wanted (done.countP F.IsCalled) c)
      (fun e s' => ∃ evs, s'.trace = evs ++ s.trace ∧
        F.sights evs <+: F.wanted (done.countP F.IsCalled) c ∧ Cause s e evs) s := by
  have hm : F.Tracked (F.counterAfter 0) (clearsOf (Lfs.new fs faults).faults) := by
    have hF : { F with counter := F.counterAfter 0 } = F := by
      have h0 : F.counterAfter 0 = F.counter := by
        rw [hzero, counterAfter]
        simp
      rw [h0]
    rw [Tracked, hF]
    exact hreg
  obtain ⟨hm', hc⟩ := hm.run hcounted hrun
  rw [Nat.zero_add] at hm'
  exact wp_mono (hm'.call hc.1) (fun _ _ h => h.2) fun _ _ h => h

/-! ### Two faults -/

/-- A fault that kills the process at the second `fsync`. -/
def secondFsync : ClearF := ⟨"after", "fsync", "/f", "none", 2, true, 0⟩

/-- The process is killed at the second `fsync`, after it took effect. -/
theorem fires_at_occurrence_fsync :
    ∃ s s', all (Call.run (.tiny 2 false) Lfs.literal) [.fsync ["f"] false {}]
        (Lfs.new ⟨.new (.tiny 2 false), oneFile⟩ (Map.single "/f" [.clear secondFsync]))
          = .ok ⟨⟩ s ∧
      (Call.fsync ["f"] false {}).run (.tiny 2 false) Lfs.literal s = .error .killed s' ∧
      ∃ evs, s'.trace = evs ++ s.trace ∧ secondFsync.sights evs <+: [.took, .fired] ∧
        Cause s .killed evs := by
  set s0 := Lfs.new ⟨.new (.tiny 2 false), oneFile⟩ (Map.single "/f" [.clear secondFsync]) with hs0
  have hcounted : ∀ s, secondFsync.Counted (.tiny 2 false) s (.fsync ["f"] false {}) := fun s =>
    ⟨fun y hy => absurd hy List.not_mem_nil, fun _ => ⟨rfl, fun f _ _ => .inl ⟨rfl, by decide⟩⟩⟩
  obtain ⟨u, hrun⟩ := exists_ok_of_halt? (r := all (Call.run (.tiny 2 false) Lfs.literal)
    [.fsync ["f"] false {}] s0) (by decide +kernel)
  have hkilled := eq_error_of_halt? (r :=
    (Call.fsync ["f"] false {}).run (.tiny 2 false) Lfs.literal
    (final (all (Call.run (.tiny 2 false) Lfs.literal) [.fsync ["f"] false {}] s0)))
    (e := .killed) (by decide +kernel)
  have halong : Along (Call.run (.tiny 2 false) Lfs.literal)
      (secondFsync.Counted (.tiny 2 false)) s0
      ([.fsync ["f"] false {}] ++ [.fsync ["f"] false {}]) :=
    ⟨hcounted _, fun b t _ => ⟨hcounted _, fun _ _ _ => trivial⟩⟩
  have hwanted : secondFsync.wanted ([Call.fsync ["f"] false {}].countP secondFsync.IsCalled)
      (.fsync ["f"] false {}) = [.took, .fired] := by decide
  generalize final (all (Call.run (.tiny 2 false) Lfs.literal) [.fsync ["f"] false {}] s0) = s at *
  generalize final ((Call.fsync ["f"] false {}).run (.tiny 2 false) Lfs.literal s) = s' at *
  have hspec := wp_of_error (fires_at_occurrence (.tiny 2 false)
    Lfs.literal _ rfl (by decide) halong
    hrun) hkilled
  rw [hwanted] at hspec
  exact ⟨s, s', hrun, hkilled, hspec⟩

/-- A fault that kills the process before the first `fsync`. -/
def firstFsync : ClearF := ⟨"before", "fsync", "/f", "none", 1, true, 0⟩

/-- **The first `fsync` returns** although a fault should kill the process before it. -/
theorem first_fsync_survives : firstFsync.validate = [] ∧
    firstFsync.wanted 0 (.fsync ["f"] false {}) = [.fired, .took] ∧
    ∃ s, all (Call.run (.tiny 2 false) Lfs.literal) [.fsync ["f"] false {}]
        (Lfs.new ⟨.new (.tiny 2 false), oneFile⟩ (Map.single "/f" [.clear firstFsync])) = .ok ⟨⟩ s ∧
      firstFsync.sights s.trace = [.took] := by
  obtain ⟨u, hrun⟩ := exists_ok_of_halt? (r := all (Call.run (.tiny 2 false) Lfs.literal)
    [.fsync ["f"] false {}]
    (Lfs.new ⟨.new (.tiny 2 false), oneFile⟩ (Map.single "/f" [.clear firstFsync])))
      (by decide +kernel)
  exact ⟨by decide, by decide, _, hrun, by decide +kernel⟩

end ClearF

end LazyFS
