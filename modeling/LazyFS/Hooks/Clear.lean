import LazyFS.Hooks.Crash
import LazyFS.Model.Calls

/-!
The hooks of the clear faults.

* `clearsOf`: the clear faults of every path; `Hook` is one call of
  `trigger_configured_clear_fault`, with the faults it meets (`Hook.met`) and what it leaves of the
  others (`Hook.next`).
* `wp_triggerConfiguredClearFault`: the hook returns with the met faults fired, `Fired`, or halts at
  the first of them that kills the process or waits for the lock, `HaltedBy`.
-/

namespace LazyFS

open Program

/-! ### The clear faults -/

/-- A clear fault among all faults. -/
def Fault.clear? : Fault → Option ClearF
  | .clear f => some f
  | _ => none

/-- The clear faults by the path they are registered for. -/
abbrev Clears := String → List ClearF

/-- The clear faults that are registered. -/
def clearsOf (m : Faults) : Clears := fun path => (faultsOf m path).filterMap Fault.clear?

/-- A change of the faults of a path that leaves its clear faults alone. -/
lemma clearsOf_mapFaults (m : Faults) (path : String) {g : List Fault → List Fault}
    (hg : ∀ l, (g l).filterMap Fault.clear? = l.filterMap Fault.clear?) :
    clearsOf (mapFaults m path g) = clearsOf m := by
  funext p
  rw [clearsOf, clearsOf, faultsOf, faultsOf, mapFaults, Map.lookup_update]
  split_ifs with hp
  · rw [hp]
    cases m.lookup path with
    | none => rfl
    | some l => exact hg l
  · rfl

/-- One call of `trigger_configured_clear_fault`. -/
structure Hook where
  opname : String
  optiming : String
  fromPath : String
  toPath : String
  deriving DecidableEq

namespace Hook

variable (h : Hook)

/-- A fault after the hook. -/
def advance (f : ClearF) : ClearF := (f.hook h.opname h.optiming h.toPath).1

/-- The condition of a fault is met at the hook. -/
def Meets (f : ClearF) : Prop := (f.hook h.opname h.optiming h.toPath).2 = true

instance (f : ClearF) : Decidable (h.Meets f) := inferInstanceAs (Decidable (_ = _))

/-- The faults that the hook meets, in their order. -/
def met (m : Clears) : List ClearF := (m h.fromPath).filter h.Meets

/-- The faults after the hook. -/
def next (m : Clears) : Clears :=
  fun path => if path = h.fromPath then (m path).map h.advance else m path

/-- A fault of any kind after the hook. -/
def advanceFault : Fault → Fault
  | .clear f => .clear (h.advance f)
  | x => x

lemma filterMap_advanceFault (l : List Fault) :
    (l.map h.advanceFault).filterMap Fault.clear? = (l.filterMap Fault.clear?).map h.advance := by
  induction l with
  | nil => rfl
  | cons x l ih =>
      rw [List.map_cons, List.filterMap_cons, ih, List.filterMap_cons]
      cases x with
      | clear f => rfl
      | reorder f => rfl
      | splitWrite f => rfl

end Hook

namespace Lfs

variable (cfg : Config) {rgx : Rgx}

/-! ### What fires -/

/-- The file system with a cleared cache. -/
def cleared (fs : FS) : FS := fs.setCache (fs.cache.clearAllCache cfg)

/-- The faults `l` of a path fired, none of them a crash: the cache was cleared for each of them,
which needs the lock. -/
structure Fired (path : String) (l : List ClearF) (s s' : Lfs) : Prop where
  fs : s'.fs = (cleared cfg)^[l.length] s.fs
  trace : s'.trace = (l.map (Event.fired path)).reverse ++ s.trace
  spares : ∀ f ∈ l, f.crash = false
  free : l ≠ [] → s.sharedHolds = 0
  same : s' = { s with fs := s'.fs, faults := s'.faults, trace := s'.trace }

/-- How a fault that fires in a thread with `holds` shared holds stops it. -/
inductive StopsBy (holds : ℕ) (f : ClearF) : Halt → Prop where
  | killed : f.crash = true → StopsBy holds f .killed
  | deadlock : f.crash = false → 0 < holds → StopsBy holds f .deadlock

/-- Some of the faults `l` of a path fired, and the last of them stopped the thread. -/
structure HaltedBy (path : String) (l : List ClearF) (s : Lfs) (e : Halt) (s' : Lfs) : Prop where
  fires : ∃ done f, done ++ [f] <+: l ∧ (∀ g ∈ done, g.crash = false) ∧
    (done ≠ [] → s.sharedHolds = 0) ∧ StopsBy s.sharedHolds f e ∧
    s'.trace = .fired path f :: ((done.map (Event.fired path)).reverse ++ s.trace)

variable {cfg} {s : Lfs}

lemma Fired.nil (path : String) (m : Faults) : Fired cfg path [] s { s with faults := m } :=
  ⟨rfl, rfl, by simp, by simp, rfl⟩

/-- A fault that fires. -/
lemma wp_fire (path : String) (f : ClearF) :
    wp (fire cfg path f) (fun _ s' => Fired cfg path [f] s s' ∧ s'.faults = s.faults)
      (HaltedBy path [f] s) s := by
  rw [fire, wp_bind, wp_modify, wp_ite]
  split_ifs with hc
  · exact ⟨[], f, List.prefix_rfl, by simp, by simp, .killed hc, rfl⟩
  · have hcrash : f.crash = false := by simpa using hc
    rw [commandFaultClearCache, wp_bind, wp_get, wp_ite]
    split_ifs with hh
    · exact ⟨[], f, List.prefix_rfl, by simp, by simp, .deadlock hcrash hh, rfl⟩
    · have hh : s.sharedHolds = 0 := Nat.eq_zero_of_not_pos hh
      exact ⟨⟨rfl, rfl, by simp [hcrash], fun _ => hh, rfl⟩, rfl⟩

lemma Fired.trans {path : String} {l l' : List ClearF} {s' s'' : Lfs} (h : Fired cfg path l s s')
    (h' : Fired cfg path l' s' s'') : Fired cfg path (l ++ l') s s'' := by
  have hholds : s'.sharedHolds = s.sharedHolds := by rw [h.same]
  refine ⟨?_, ?_, ?_, ?_, ?_⟩
  · rw [h'.fs, h.fs, List.length_append, Nat.add_comm, Function.iterate_add_apply]
  · rw [h'.trace, h.trace]
    simp
  · intro f hf
    rcases List.mem_append.mp hf with hf | hf
    · exact h.spares f hf
    · exact h'.spares f hf
  · intro hne
    by_cases hl : l = []
    · rw [hl, List.nil_append] at hne
      rw [← hholds]
      exact h'.free hne
    · exact h.free hl
  · rw [h'.same, h.same]

lemma HaltedBy.after {path : String} {l l' : List ClearF} {s' s'' : Lfs} {e : Halt}
    (h : Fired cfg path l s s') (h' : HaltedBy path l' s' e s'') :
    HaltedBy path (l ++ l') s e s'' := by
  have hholds : s'.sharedHolds = s.sharedHolds := by rw [h.same]
  obtain ⟨done, f, hp, hd, hfree, hstop, htr⟩ := h'.fires
  refine ⟨l ++ done, f, ?_, ?_, ?_, ?_, ?_⟩
  · rw [List.append_assoc]
    exact (List.prefix_append_right_inj l).mpr hp
  · intro g hg
    rcases List.mem_append.mp hg with hg | hg
    · exact h.spares g hg
    · exact hd g hg
  · intro hne
    by_cases hl : l = []
    · rw [hl, List.nil_append] at hne
      rw [← hholds]
      exact hfree hne
    · exact h.free hl
  · rw [← hholds]
    exact hstop
  · rw [htr, h.trace]
    simp

lemma HaltedBy.append {path : String} {l : List ClearF} (l' : List ClearF) {s' : Lfs} {e : Halt}
    (h : HaltedBy path l s e s') : HaltedBy path (l ++ l') s e s' := by
  obtain ⟨done, f, hp, h⟩ := h.fires
  exact ⟨done, f, hp.trans (List.prefix_append l l'), h⟩

/-! ### The loop -/

lemma faultsOf_set {m : Faults} {path : String} (h : faultsOf m path ≠ [])
    (l : List Fault) (p : String) :
    faultsOf (mapFaults m path fun _ => l) p = if p = path then l else faultsOf m p := by
  rw [faultsOf, mapFaults, Map.lookup_update]
  split_ifs with hp
  · cases hm : m.lookup path with
    | none =>
        rw [faultsOf, hm] at h
        exact absurd rfl h
    | some v => rfl
  · rfl

/-- **The loop**: by induction on the faults still to be looked at. -/
lemma wp_clearFaultLoop (h : Hook) (rest : List Fault) : ∀ (seen : List Fault) (s : Lfs),
    faultsOf s.faults h.fromPath = seen ++ rest →
    wp (clearFaultLoop cfg h.opname h.optiming h.fromPath h.toPath seen rest)
      (fun _ s' => Fired cfg h.fromPath ((rest.filterMap Fault.clear?).filter h.Meets) s s' ∧
        ∀ path, faultsOf s'.faults path
          = if path = h.fromPath then seen ++ rest.map h.advanceFault else faultsOf s.faults path)
      (HaltedBy h.fromPath ((rest.filterMap Fault.clear?).filter h.Meets) s) s := by
  induction rest with
  | nil =>
      intro seen s hs
      refine ⟨Fired.nil _ _, fun path => ?_⟩
      split_ifs with hp
      · rw [hp, hs]
        rfl
      · rfl
  | cons x rest ih =>
      intro seen s hs
      -- a fault of another kind is passed over
      have hother : ∀ x', x' = x → x.clear? = none →
          wp (clearFaultLoop cfg h.opname h.optiming h.fromPath h.toPath (seen ++ [x']) rest)
            (fun _ s' => Fired cfg h.fromPath (((x :: rest).filterMap Fault.clear?).filter h.Meets)
              s s' ∧
              ∀ path, faultsOf s'.faults path = if path = h.fromPath then
                seen ++ x :: rest.map h.advanceFault else faultsOf s.faults path)
            (HaltedBy h.fromPath (((x :: rest).filterMap Fault.clear?).filter h.Meets) s) s := by
        rintro x' rfl hx
        rw [List.filterMap_cons, hx]
        refine wp_mono (ih (seen ++ [x']) s (by rw [hs, List.append_assoc, List.singleton_append]))
          ?_ fun _ _ he => he
        rintro a s' ⟨hf, hall⟩
        refine ⟨hf, fun path => ?_⟩
        rw [hall, List.append_assoc, List.singleton_append]
      cases x with
      | reorder f => exact hother _ rfl rfl
      | splitWrite f => exact hother _ rfl rfl
      | clear f =>
          rw [clearFaultLoop, wp_bind, wp_modify]
          set s1 : Lfs := { s with
            faults := mapFaults s.faults h.fromPath fun _ =>
              seen ++ .clear (f.hook h.opname h.optiming h.toPath).1 :: rest } with hs1
          have hne : faultsOf s.faults h.fromPath ≠ [] := by
            rw [hs]
            simp
          have hfaults : ∀ path, faultsOf s1.faults path = if path = h.fromPath then
              seen ++ .clear (h.advance f) :: rest else faultsOf s.faults path :=
            fun path => faultsOf_set hne _ path
          have hat : faultsOf s1.faults h.fromPath = seen ++ [.clear (h.advance f)] ++ rest := by
            rw [hfaults, if_pos rfl, List.append_assoc, List.singleton_append]
          have hfired : Fired cfg h.fromPath [] s s1 := Fired.nil _ _
          have hlist : ((Fault.clear f :: rest).filterMap Fault.clear?).filter h.Meets
              = (if h.Meets f then [f] else [])
                ++ (rest.filterMap Fault.clear?).filter h.Meets := by
            rw [List.filterMap_cons]
            simp only [Fault.clear?, List.filter_cons, decide_eq_true_eq]
            split_ifs <;> rfl
          -- what is left of the loop, from a state with the fault advanced
          have hloop : ∀ s2, Fired cfg h.fromPath (if h.Meets f then [f] else []) s s2 →
              (∀ path, faultsOf s2.faults path = faultsOf s1.faults path) →
              wp (clearFaultLoop cfg h.opname h.optiming h.fromPath h.toPath
                (seen ++ [.clear (f.hook h.opname h.optiming h.toPath).1]) rest)
                (fun _ s' => Fired cfg h.fromPath
                    (((Fault.clear f :: rest).filterMap Fault.clear?).filter h.Meets) s s' ∧
                  ∀ path, faultsOf s'.faults path = if path = h.fromPath then
                    seen ++ (Fault.clear f :: rest).map h.advanceFault else faultsOf s.faults path)
                (HaltedBy h.fromPath
                  (((Fault.clear f :: rest).filterMap Fault.clear?).filter h.Meets) s) s2 := by
            intro s2 h2 hf2
            rw [hlist]
            refine wp_mono (ih (seen ++ [.clear (h.advance f)]) s2 ((hf2 _).trans hat)) ?_
              fun e s' he => HaltedBy.after h2 he
            rintro a s' ⟨hf, hall⟩
            refine ⟨h2.trans hf, fun path => ?_⟩
            rw [hall, hf2, hfaults, List.append_assoc]
            split_ifs <;> rfl
          -- the fault fires at its occurrence, and is only counted otherwise
          by_cases hm : h.Meets f
          · rw [hm, if_pos rfl, wp_bind]
            refine wp_mono (wp_fire h.fromPath f) ?_ fun e s' he => ?_
            · rintro a s2 ⟨h2, hf2⟩
              refine hloop s2 ?_ fun path => by rw [hf2]
              rw [if_pos hm]
              exact hfired.trans h2
            · rw [hlist, if_pos hm]
              exact HaltedBy.append _ (HaltedBy.after hfired he)
          · have hm' : (f.hook h.opname h.optiming h.toPath).2 = false := by
              simpa [Hook.Meets] using hm
            rw [hm', if_neg Bool.false_ne_true]
            refine hloop s1 ?_ fun _ => rfl
            rw [if_neg hm]
            exact hfired

/-- **The hook**: it returns with the met faults fired and the others advanced, or one of those it
meets stops the thread. -/
theorem wp_triggerConfiguredClearFault (h : Hook) (s : Lfs) :
    wp (triggerConfiguredClearFault cfg h.opname h.optiming h.fromPath h.toPath)
      (fun _ s' => Fired cfg h.fromPath (h.met (clearsOf s.faults)) s s' ∧
        clearsOf s'.faults = h.next (clearsOf s.faults) ∧
        ∀ path, faultsOf s'.faults path = if path = h.fromPath then
          (faultsOf s.faults path).map h.advanceFault else faultsOf s.faults path)
      (HaltedBy h.fromPath (h.met (clearsOf s.faults)) s) s := by
  rw [triggerConfiguredClearFault, wp_bind, wp_get]
  refine wp_mono (wp_clearFaultLoop h (faultsOf s.faults h.fromPath) [] s rfl) ?_ fun _ _ he => he
  rintro a s' ⟨hf, hall⟩
  have hall' : ∀ path, faultsOf s'.faults path = if path = h.fromPath then
      (faultsOf s.faults path).map h.advanceFault else faultsOf s.faults path := by
    intro path
    rw [hall]
    split_ifs with hp
    · rw [hp, List.nil_append]
    · rfl
  refine ⟨hf, ?_, hall'⟩
  funext path
  rw [clearsOf, hall', Hook.next]
  split_ifs with hp
  · exact h.filterMap_advanceFault _
  · rfl

end Lfs

end LazyFS
