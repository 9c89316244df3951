import LazyFS.Model.Hooks

/-!
The table of crash faults and its hook.

* `Lfs.crashFaultsAt`: the crash faults for an operation at a timing; `Lfs.arm` adds one.
* `addCrashFault_eq`, `triggerCrashFault_eq`: the two functions on the table.
-/

namespace LazyFS

open Program

namespace Lfs

variable {rgx : Rgx} {s : Lfs} {timing timing' op op' fromRgx toRgx : String}

/-- The crash faults for an operation at a timing. -/
def crashFaultsAt (s : Lfs) (timing op : String) : Option (List (String × String)) :=
  (if timing = "before" then s.crashFaultsBefore else s.crashFaultsAfter).lookup op

/-- The state with one crash fault more. -/
def arm (s : Lfs) (timing op fromRgx toRgx : String) : Lfs :=
  if timing = "before" then
    { s with crashFaultsBefore := s.crashFaultsBefore.update op (· ++ [(fromRgx, toRgx)]) }
  else { s with crashFaultsAfter := s.crashFaultsAfter.update op (· ++ [(fromRgx, toRgx)]) }

@[simp] lemma fs_arm : (s.arm timing op fromRgx toRgx).fs = s.fs := by rw [arm]; split_ifs <;> rfl

@[simp] lemma faults_arm : (s.arm timing op fromRgx toRgx).faults = s.faults := by
  rw [arm]; split_ifs <;> rfl

@[simp] lemma pendingWrite_arm : (s.arm timing op fromRgx toRgx).pendingWrite = s.pendingWrite := by
  rw [arm]; split_ifs <;> rfl

@[simp] lemma sharedHolds_arm : (s.arm timing op fromRgx toRgx).sharedHolds = s.sharedHolds := by
  rw [arm]; split_ifs <;> rfl

@[simp] lemma persisted_arm : (s.arm timing op fromRgx toRgx).persisted = s.persisted := by
  rw [arm]; split_ifs <;> rfl

@[simp] lemma trace_arm : (s.arm timing op fromRgx toRgx).trace = s.trace := by
  rw [arm]; split_ifs <;> rfl

@[simp] lemma parts_arm : (s.arm timing op fromRgx toRgx).parts = s.parts := by
  rw [arm]; split_ifs <;> rfl

/-- The table after one crash fault is added. -/
lemma crashFaultsAt_arm :
    (s.arm timing op fromRgx toRgx).crashFaultsAt timing' op'
      = if (timing' = "before" ↔ timing = "before") ∧ op' = op then
          (s.crashFaultsAt timing' op').map (· ++ [(fromRgx, toRgx)])
        else s.crashFaultsAt timing' op' := by
  unfold arm crashFaultsAt
  by_cases h1 : timing = "before"
  · by_cases h2 : timing' = "before"
    · simp only [h1, h2, if_true, Map.lookup_update, true_and]
      split_ifs with h3
      · rw [h3]
      · rfl
    · simp [h1, h2]
  · by_cases h2 : timing' = "before"
    · simp [h1, h2]
    · simp only [h1, h2, if_false, Map.lookup_update, true_and]
      split_ifs with h3
      · rw [h3]
      · rfl

/-- `add_crash_fault` of an operation in the table. -/
lemma addCrashFault_eq (h : (s.crashFaultsAt timing op).isSome) :
    addCrashFault timing op fromRgx toRgx s = .ok ⟨⟩ (s.arm timing op fromRgx toRgx) := by
  rw [crashFaultsAt] at h
  rw [addCrashFault, arm]
  rw [get_bind]
  by_cases h1 : timing = "before"
  · rw [if_pos h1] at h
    rw [if_pos h1, if_pos h1, if_neg (by simpa [Option.isSome_iff_ne_none] using h)]
    rfl
  · rw [if_neg h1] at h
    rw [if_neg h1, if_neg h1, if_neg (by simpa [Option.isSome_iff_ne_none] using h)]
    rfl

/-- `trigger_crash_fault` kills the process when a crash fault is met, and changes nothing. -/
lemma triggerCrashFault_eq (fromPath toPath : String) :
    triggerCrashFault rgx op timing fromPath toPath s = match s.crashFaultsAt timing op with
      | none => .error .exception s
      | some l => if l.any (crashFaultMet rgx op fromPath toPath) then .error .killed s
          else .ok ⟨⟩ s := by
  rw [triggerCrashFault]
  rw [get_bind, ← crashFaultsAt]
  cases s.crashFaultsAt timing op with
  | none => rfl
  | some l =>
      dsimp only
      split_ifs
      · rfl
      · rfl

/-- The operations of a fresh table. -/
lemma crashFaultsAt_new (fs : FS) (faults : Faults) (timing : String)
    (hop : op ∈ allowCrashFsOperations) : (Lfs.new fs faults).crashFaultsAt timing op
      = some [] := by
  have h : ∀ op ∈ allowCrashFsOperations, noCrashFaults.lookup op = some [] := by decide
  rw [crashFaultsAt, new, ite_self]
  exact h op hop

end Lfs

end LazyFS
