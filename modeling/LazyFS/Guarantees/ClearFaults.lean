import LazyFS.Hooks.Calls
import LazyFS.File.Kept
import LazyFS.Guarantees.CrashFaults

/-!
**Clear faults** without a crash, and the lock that the clear needs.

* `Call.atLock`: what a call finds when it takes the lock; `Call.Undisturbed` says that no fault is
  met at its hooks under the lock.
* `runs_iff_undisturbed`: a run waits for its own lock exactly when a call is disturbed.
* `fsync_deadlocks`: a fault after the first `fsync`.
-/

namespace LazyFS

open Program Mark

variable {cfg : Config} {rgx : Rgx} {s s' : Lfs} {c : Call}

/-- Only clear faults without a crash. -/
def OnlyClears (faults : Faults) : Prop :=
  ∀ path, ∀ x ∈ faultsOf faults path, ∃ f, x = .clear f ∧ f.crash = false

/-- The file system and the clear faults when a call takes the lock: the faults that its first hook
meets have cleared the cache. -/
def Call.atLock (cfg : Config) (c : Call) (s : Lfs) : FS × Clears :=
  match c.head with
  | none => (s.fs, clearsOf s.faults)
  | some h => ((Lfs.cleared cfg)^[(h.met (clearsOf s.faults)).length] s.fs,
      h.next (clearsOf s.faults))

/-- No fault is met at the hooks of a call under the lock. -/
def Call.Undisturbed (cfg : Config) (s : Lfs) (c : Call) : Prop :=
  Quiet (c.lockedMarks cfg (c.atLock cfg s).1) (c.atLock cfg s).2

lemma Began.atLock (h : Began cfg c.head s s') : c.atLock cfg s = (s'.fs, clearsOf s'.faults) := by
  rw [Call.atLock]
  generalize c.head = o at h
  cases h with
  | none => rfl
  | some hh => rw [hh.clears, hh.fired.fs]

/-! ### Runs -/

/-- No thread is inside a call, and the faults are clear faults without a crash. -/
structure Idle (s : Lfs) : Prop where
  holds : s.sharedHolds = 0
  calm : Calm s
  spares : ∀ path, ∀ f ∈ clearsOf s.faults path, f.crash = false

lemma OnlyClears.idle (fs : FS) {faults : Faults} (h : OnlyClears faults) :
    Idle (Lfs.new fs faults) := by
  refine ⟨rfl, ⟨fun path x hx => ?_, rfl, rfl⟩, fun path f hf => ?_⟩
  · obtain ⟨f, rfl, -⟩ := h path x hx
    rfl
  · obtain ⟨x, hx, hxf⟩ := List.mem_filterMap.mp hf
    obtain ⟨g, rfl, hg⟩ := h path x hx
    rw [Fault.clear?, Option.some.injEq] at hxf
    exact hxf ▸ hg

/-- A hook does not make a fault a crash. -/
lemma Hook.crash_advance (h : Hook) (f : ClearF) : (h.advance f).crash = f.crash := by
  rw [Hook.advance, ClearF.hook]
  split_ifs
  · rfl
  · rfl
  · rfl

lemma Hook.spares_next (h : Hook) {m : Clears} (hm : ∀ path, ∀ f ∈ m path, f.crash = false) :
    ∀ path, ∀ f ∈ h.next m path, f.crash = false := by
  intro path f hf
  rw [Hook.next] at hf
  split_ifs at hf
  · obtain ⟨g, hg, rfl⟩ := List.mem_map.mp hf
    rw [h.crash_advance]
    exact hm path g hg
  · exact hm path f hf

lemma Mark.spares_nextAll (l : List Mark) : ∀ {m : Clears},
    (∀ path, ∀ f ∈ m path, f.crash = false) →
    ∀ path, ∀ f ∈ nextAll l m path, f.crash = false := by
  induction l with
  | nil => exact fun hm => hm
  | cons x l ih =>
      intro m hm
      cases x with
      | hook h => exact ih (h.spares_next hm)
      | took op p q => exact ih hm

lemma Began.idle (h : Began cfg c.head s s') (hs : Idle s) : Idle s' := by
  generalize c.head = o at h
  cases h with
  | none => exact hs
  | some hh =>
      refine ⟨?_, hh.calm hs.calm, ?_⟩
      · rw [hh.fired.same]
        exact hs.holds
      · rw [hh.clears]
        exact Hook.spares_next _ hs.spares

lemma Passed.idle {marks : List Mark} (h : Passed marks s s') (hs : Idle s) : Idle s' := by
  refine ⟨h.holds.trans hs.holds, h.calm hs.calm, ?_⟩
  rw [h.clears]
  exact Mark.spares_nextAll marks hs.spares

/-- **One call**: it returns undisturbed, or waits for its own lock when it is disturbed. -/
lemma Idle.call (hs : Idle s) (c : Call) :
    wp (c.run cfg rgx) (fun _ s' => Idle s' ∧ c.Undisturbed cfg s)
      (fun e _ => e = .exception ∨ e = .deadlock ∧ ¬ c.Undisturbed cfg s) s := by
  refine wp_mono (c.run_spec s) ?_ ?_
  · rintro r s' ⟨s1, hb, hp⟩
    refine ⟨hp.idle (hb.idle hs), ?_⟩
    rw [Call.Undisturbed, hb.atLock]
    exact hp.quiet
  · intro e s' he
    have hfailed : ∀ {s1 : Lfs}, Calm s1 → Failed s1 e → e = .exception :=
      fun hc hf => hf.resolve_right fun h => h.2 hc
    cases he with
    | atStart hf ht => exact .inl (hfailed hs.calm hf)
    | atHead hh hby =>
        obtain ⟨done, f, hp, -, -, hstop, -⟩ := hby.fires
        have hmem : f ∈ clearsOf s.faults _ :=
          (List.mem_filter.mp (hp.subset (List.mem_append_right _ List.mem_cons_self))).1
        cases hstop with
        | killed hc =>
            rw [hs.spares _ f hmem] at hc
            cases hc
        | deadlock _ hpos =>
            rw [hs.holds] at hpos
            exact absurd hpos (Nat.lt_irrefl 0)
    | @inside s1 hb hst =>
        have hs1 := hb.idle hs
        cases hst with
        | failed done rest hm hq hf ht => exact .inl (hfailed hs1.calm hf)
        | caught done h rest hm hq hc =>
            obtain ⟨f, hf, he, -⟩ := hc.fires
            have hmem := List.mem_of_mem_head? hf
            refine .inr ⟨?_, fun hu => ?_⟩
            · rw [he, ClearF.halt,
                Mark.spares_nextAll done hs1.spares _ f (List.mem_filter.mp hmem).1,
                if_neg Bool.false_ne_true]
            · rw [Call.Undisturbed, hb.atLock, hm, quiet_append, Quiet] at hu
              rw [hu.2.1] at hmem
              cases hmem

/-- **Runs of calls** with clear faults that spare the process.  A run waits for its own lock when a
call is disturbed and only then, and the hook before a call clears the cache for every fault it
meets. -/
theorem runs_iff_undisturbed (cfg : Config) (rgx : Rgx) (fs : FS) {faults : Faults}
    (h : OnlyClears faults) (calls : List Call) :
    wp (all (Call.run cfg rgx) calls)
      (fun _ s => Along (Call.run cfg rgx) (Call.Undisturbed cfg) (Lfs.new fs faults) calls ∧
        ∀ k : Hook, ∃ s', Lfs.triggerConfiguredClearFault cfg k.opname k.optiming
          k.fromPath k.toPath s
          = .ok ⟨⟩ s' ∧ s'.fs = (Lfs.cleared cfg)^[(k.met (clearsOf s.faults)).length] s.fs)
      (fun e _ => e = .exception ∨ e = .deadlock ∧
        ¬ Along (Call.run cfg rgx) (Call.Undisturbed cfg) (Lfs.new fs faults) calls)
      (Lfs.new fs faults) := by
  refine wp_mono (wp_all (fun s c hs => hs.call c) (h.idle fs)) ?_ fun _ _ he => he
  rintro u s ⟨hs, hA⟩
  refine ⟨hA, fun k => ?_⟩
  have hk : wp (Lfs.triggerConfiguredClearFault cfg k.opname k.optiming k.fromPath k.toPath)
      _ _ s :=
    Lfs.wp_triggerConfiguredClearFault k s
  cases hrun : Lfs.triggerConfiguredClearFault cfg k.opname k.optiming k.fromPath k.toPath s with
  | ok a s' => exact ⟨s', rfl, (wp_of_ok hk hrun).1.fs⟩
  | error e s' =>
      obtain ⟨done, f, hp, -, -, hstop, -⟩ := (wp_of_error hk hrun).fires
      have hmem : f ∈ clearsOf s.faults _ :=
        (List.mem_filter.mp (hp.subset (List.mem_append_right _ List.mem_cons_self))).1
      cases hstop with
      | killed hc =>
          rw [hs.spares _ f hmem] at hc
          cases hc
      | deadlock _ hpos =>
          rw [hs.holds] at hpos
          exact absurd hpos (Nat.lt_irrefl 0)

/-! ### Two runs -/

/-- One clear fault for the file, at the first occurrence of an operation. -/
def clearFault (timing op : String) : Faults :=
  Map.single "/f" [.clear ⟨timing, op, "/f", "none", 1, false, 0⟩]

lemma onlyClears_clearFault (timing op : String) : OnlyClears (clearFault timing op) := by
  intro path x hx
  rw [faultsOf, clearFault, Map.lookup_single] at hx
  split_ifs at hx
  · exact ⟨_, List.mem_singleton.mp hx, rfl⟩
  · exact absurd hx List.not_mem_nil

/-- The file system with one file and the clear fault. -/
def withClearFault (timing op : String) : Lfs :=
  Lfs.new ⟨.new (.tiny 2 false), oneFile⟩ (clearFault timing op)

/-- Two writes and an `fsync`, with a fault before a write. -/
theorem runs_iff_undisturbed_writes : ∃ s,
    all (Call.run (.tiny 2 false) Lfs.literal) [.write ["f"] abcd 4 0 handle {},
      .write ["f"] abcd 4 0 handle {}, .fsync ["f"] false {}] (withClearFault "before" "write")
      = .ok ⟨⟩ s ∧
    Along (Call.run (.tiny 2 false) Lfs.literal) (Call.Undisturbed (.tiny 2 false))
      (withClearFault "before" "write") [.write ["f"] abcd 4 0 handle {},
        .write ["f"] abcd 4 0 handle {}, .fsync ["f"] false {}] := by
  have hspec := runs_iff_undisturbed (.tiny 2 false) Lfs.literal ⟨.new (.tiny 2 false), oneFile⟩
    (onlyClears_clearFault "before" "write") [.write ["f"] abcd 4 0 handle {},
      .write ["f"] abcd 4 0 handle {}, .fsync ["f"] false {}]
  obtain ⟨u, hrun⟩ := exists_ok_of_halt? (r := all (Call.run (.tiny 2 false) Lfs.literal)
    [.write ["f"] abcd 4 0 handle {}, .write ["f"] abcd 4 0 handle {}, .fsync ["f"] false {}]
    (withClearFault "before" "write")) (by decide +kernel)
  exact ⟨_, hrun, (wp_of_ok hspec hrun).1⟩

/-- **`lfs_fsync` waits for itself**: a fault after the first `fsync` asks for the lock that `fsync`
still holds. -/
theorem fsync_deadlocks : OnlyClears (clearFault "after" "fsync") ∧ ∃ s,
    all (Call.run (.tiny 2 false) Lfs.literal) [.fsync ["f"] false {}]
    (withClearFault "after" "fsync")
      = .error .deadlock s := by
  exact ⟨onlyClears_clearFault _ _, _, eq_error_of_halt? (by decide +kernel)⟩

end LazyFS
