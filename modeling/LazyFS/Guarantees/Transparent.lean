import LazyFS.File.Kept
import LazyFS.Hooks.Follow
import LazyFS.Guarantees.CrashFaults

/-!
**Hooks are transparent**: where no fault but crash faults is registered, the calls of an
application do to the file system what they would do without hooks, up to the call in which the
process is killed.

* `Lfs.CrashOnly.arm`: crash faults may be added.
* `EndsEarly`: how a list of calls ends before its last one returns.
* `calls_followPlain`: a list of calls returns what the plain calls return, or ends early.
-/

namespace LazyFS

open Program

/-- One more crash fault. -/
lemma Lfs.CrashOnly.arm {s : Lfs} (hs : s.CrashOnly) (timing op fromRgx toRgx : String) :
    (s.arm timing op fromRgx toRgx).CrashOnly := by
  refine ⟨fun path => by rw [faults_arm]; exact hs.none path, fun timing' op' hop => ?_⟩
  rw [crashFaultsAt_arm]
  split_ifs
  · rw [Option.isSome_map]
    exact hs.known timing' op' hop
  · exact hs.known timing' op' hop

/-- Calls that end early: the process is killed at a stage of one of them, after the plain calls
before it, for one of its crash faults; or one of the plain calls is undefined. -/
inductive EndsEarly (cfg : Config) (s : Lfs) (calls : List Call) : Halt → Lfs → Prop where
  | killed {done rest : List Call} {c : Call} {fs : FS} {results : List ℤ} {s' : Lfs} :
      ¬ s.NoCrash → calls = done ++ c :: rest →
      Runs.collect (Call.plain cfg) s.fs done = some (fs, results) → c.Stage cfg fs s'.fs →
      EndsEarly cfg s calls .killed s'
  | exception {s' : Lfs} : Runs.collect (Call.plain cfg) s.fs calls = none →
      EndsEarly cfg s calls .exception s'

/-- **Hooks are transparent.** Where only crash faults are registered, a list of calls returns with
the file system and the results of the plain calls, the faults as they were and the lock released,
or it ends early. -/
theorem calls_followPlain (cfg : Config) (rgx : Rgx) {s : Lfs} (hs : s.CrashOnly)
    (calls : List Call) :
    wp (each (Call.run cfg rgx) calls)
      (fun results s' => Runs.collect (Call.plain cfg) s.fs calls = some (s'.fs, results) ∧
        s.Alike s')
      (EndsEarly cfg s calls) s := by
  have hrefl : s.Alike s := hs.alike rfl rfl rfl rfl
  have hcall : ∀ (fs : FS) (s1 : Lfs) (c : Call), (s1.fs = fs ∧ s.Alike s1) →
      wp (c.run cfg rgx) (fun r s2 => ∃ fs', c.plain cfg fs = some (fs', r) ∧
        s2.fs = fs' ∧ s.Alike s2)
        (Crashed (c.plain cfg fs) (c.Stage cfg fs) s) s1 := by
    rintro fs s1 c ⟨rfl, h1⟩
    refine wp_mono (c.followPlain cfg rgx (h1.crashOnly hs)) ?_ ?_
    · rintro r s2 ⟨hplain, h2⟩
      exact ⟨s2.fs, hplain, rfl, h1.trans h2⟩
    · intro e s2 he
      cases he with
      | killed hc hS => exact .killed (fun hno => hc (h1.noCrash.mpr hno)) hS
      | exception hn => exact .exception hn
  refine wp_mono (wp_each hcall ⟨rfl, hrefl⟩) ?_ ?_
  · rintro results s' ⟨fs, hrun, rfl, halike⟩
    exact ⟨hrun, halike⟩
  · rintro e s' ⟨done, c, rest, fs, results, hcalls, hrun, hK⟩
    cases hK with
    | killed hc hS => exact .killed hc hcalls hrun hS
    | exception hn => exact .exception (by rw [hcalls]; exact Runs.collect_eq_none hrun hn)

/-- A file and a crash fault after every write to it. -/
def crashAfterWrite : Lfs :=
  (Lfs.new ⟨.new (.tiny 2 false), oneFile⟩ ∅).arm "after" "write" "f" "none"

/-- A write to the file, and its `lfs_fsync`. -/
theorem calls_followPlain_write :
    wp (each (Call.run (.tiny 2 false) Lfs.literal) [.write ["f"] abcd 4 0 handle {},
      .fsync ["f"] false {}])
      (fun results s' => Runs.collect (Call.plain (.tiny 2 false)) crashAfterWrite.fs
          [.write ["f"] abcd 4 0 handle {}, .fsync ["f"] false {}] = some (s'.fs, results) ∧
        crashAfterWrite.Alike s')
      (EndsEarly (.tiny 2 false) crashAfterWrite
        [.write ["f"] abcd 4 0 handle {}, .fsync ["f"] false {}]) crashAfterWrite :=
  calls_followPlain _ _ ((Lfs.crashOnly_new _).arm _ _ _ _) _

end LazyFS
