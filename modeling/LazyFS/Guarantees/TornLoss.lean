import LazyFS.Guarantees.PowerLoss
import LazyFS.Guarantees.TornSafe

/-!
**A torn-op fault is a power failure in the middle of a write**: the file of the write is left as it
was synced, with the parts of the write that the fault keeps, and every other file as it was synced.

* `tornLog`: the torn writes of calls, in the order in which the torn-op faults count them.
* `SplitWriteF.inside_of_valid`: the faults whose parts lie in a write.
* `SurvivesTorn`: a new mount over a disk shows what the first calls of a list have synced and the
  parts of one write, the first one that is due.
* `torn_survives`: calls with hooks run along those without as long as no write is due, and the
  process is killed at the first one that is.
-/

namespace LazyFS

open Engine Program Lfs

variable {cfg : Config} {rgx : Rgx}

/-! ### Parts that lie in their write -/

namespace SplitWriteF

variable {f : SplitWriteF} {w : Write}

/-- Equal parts of a write below `2^31`. -/
lemma inside_of_even (hf : f.Even) (h : w.offset + w.buf.length < 2 ^ 31) {ps : List Part}
    (hps : splitParts f w.buf.length w.offset = some ps) : ∀ p ∈ ps, p.Inside w := by
  have hwithin := within_even hf.parts hf.within (by omega) hps
  rw [splitParts_even hf h] at hps
  obtain rfl := Option.some.inj hps
  intro p hp
  obtain ⟨hstart, hstop⟩ := hwithin p hp
  refine ⟨hstart, hstop, ?_⟩
  obtain ⟨x, -, rfl⟩ := List.mem_map.mp hp
  exact Nat.cast_add _ _

/-- Parts of given sizes that do not overflow, of a write below `2^31`. -/
lemma inside_of_sized (hf : f.Sized) (hsum : f.partsBytes.sum < 2 ^ 31)
    (h : w.offset + w.buf.length < 2 ^ 31) {ps : List Part}
    (hps : splitParts f w.buf.length w.offset = some ps) : ∀ p ∈ ps, p.Inside w := by
  by_cases hadd : f.persist = [] ∨ f.AddsUp w.buf.length
  · rw [splitParts_of_addsUp hf hadd] at hps
    obtain rfl := Option.some.inj hps
    intro p hp
    obtain ⟨j, hj, rfl⟩ := List.mem_map.mp hp
    have hle := start_add_le_sum hf hj
    have hnonneg := start_nonneg hf j
    have hbytes := getD_nonneg hf (j - 1).toNat
    have heq : f.partsBytes.sum = w.buf.length := by
      rcases hadd with hnil | hadd
      · rw [hnil] at hj
        cases hj
      · rw [addsUp_iff (by omega)] at hadd
        omega
    obtain ⟨hstart, hoff⟩ : toInt (f.start j) = f.start j ∧
        toInt (w.offset + toInt (f.start j)) = w.offset + f.start j := kept_of_lt hf (by omega)
    rw [hstart] at hoff ⊢
    refine ⟨hnonneg, ?_, hoff⟩
    dsimp only
    omega
  · push Not at hadd
    rw [splitParts_of_not_addsUp hf hadd.1 hadd.2] at hps
    cases hps

/-- **The parts of a fault that was checked lie in the write** below `2^31`, unless its sizes
overflow. -/
lemma inside_of_valid (hf : f.Valid) (hsum : f.partsBytes.sum < 2 ^ 31)
    (h : w.offset + w.buf.length < 2 ^ 31) {ps : List Part}
    (hps : splitParts f w.buf.length w.offset = some ps) : ∀ p ∈ ps, p.Inside w := by
  rcases hf with ⟨hparts, hwithin⟩ | hsized
  · by_cases hnil : f.persist = []
    · rw [splitParts, if_neg (by omega), hnil] at hps
      obtain rfl := Option.some.inj hps
      exact fun p hp => absurd hp List.not_mem_nil
    · exact inside_of_even ⟨hparts, hnil, hwithin⟩ h hps
  · exact inside_of_sized hsized hsum h hps

end SplitWriteF

/-! ### Runs -/

/-- The torn writes of calls on the files of a fresh mount. -/
def tornLog (cfg : Config) (d : Disk) (ops : List FileOp) : List Write :=
  Runs.trace (CrashState.step cfg) (fun t op => (op.tornWrites cfg t.fs).map Prod.fst)
    (.start cfg d) ops

/-- A new mount over the disk `d'` shows the files of `d` as the calls `done` have left them synced,
and in the file of a torn write of the call `op` the parts that the torn-op fault of its path keeps:
the first write that is due, after those of `done` and the ones of `op` before it. -/
def SurvivesTorn (cfg : Config) (faults : String → List Fault) (d : Disk)
    (done : List FileOp) (op : FileOp) (d' : Disk) : Prop :=
  ∃ t before x after ps i, Runs.run (CrashState.step cfg) (.start cfg d) done = some t ∧
    op.tornWrites cfg t.fs = before ++ x :: after ∧
    NoneDue faults (tornLog cfg d done ++ before.map Prod.fst) ∧
    dueParts (counted faults (tornLog cfg d done ++ before.map Prod.fst)) x.1 = some ps ∧
    d.ino x.1.path = some i ∧
    ∀ path j, d.ino path = some j → FS.Displays cfg ⟨.new cfg, d'⟩ path j
      (if j = i then x.1.onto ps (t.synced i) else t.synced j)

/-- The disk of a call that was killed at a torn write. -/
lemma CrashState.LeftTorn.survives (h : OnePage cfg) {d d' : Disk} {faults : String → List Fault}
    {t : CrashState} {done : List FileOp} {op : FileOp} {x : Write × TornIo}
    {ps : List Part} {i : ℕ} (hinv : t.Inv cfg)
    (hrun : Runs.run (CrashState.step cfg) (.start cfg d) done = some t)
    (hleft : t.LeftTorn cfg d faults (tornLog cfg d done) op x ps i d') :
    SurvivesTorn cfg faults d done op d' := by
  obtain ⟨before, after, htorn, hnone, hdue⟩ := hleft.first
  refine ⟨t, before, x, after, ps, i, hrun, htorn, hnone, hdue, hleft.file, fun path j hj => ?_⟩
  have hlen : ∀ k, (Function.update t.synced i (x.1.onto ps (t.synced i)) k).length
      ≤ maxSize cfg.ioBlockSize := by
    intro k
    rw [Function.update_apply]
    split_ifs
    · exact hleft.length_le
    · rw [← hinv.disk]
      exact (hinv.keeps.file k).disk_le
  have hshows := displays_of_bytes h hlen hleft.names hleft.bytes hj
  rw [Function.update_apply] at hshows
  exact hshows

/-- **A torn-op fault is a power failure in the middle of a write.** With enough free pages, calls
with hooks, where torn-op faults and crash faults are registered, run as those without hooks as long
as no write of theirs is due, and every file survives as it was synced. Otherwise the process is
killed in a call after those that returned: for a crash fault, and every file survives as it was
synced before that call or, if it is over, after it; or at the first write that is due, and its file
survives as it was synced with the parts of the write that the fault keeps. -/
theorem torn_survives (h : OnePage cfg) (hlru : cfg.applyLruEviction = false) (rgx : Rgx) {d : Disk}
    (hd : ∀ i, (d.bytes i).length ≤ maxSize cfg.ioBlockSize) {s : Lfs} (hs : s.TearOnly)
    (hlock : s.sharedHolds = 0) (hfs : s.fs = ⟨.new cfg, d⟩) {ops : List FileOp}
    (hops : Runs.Guarded (CrashState.step cfg) (fun t op => op.Proper cfg t.fs ∧ op.Roomy cfg t.fs ∧
      op.CanTear cfg rgx (faultsOf s.faults) t.fs) (.start cfg d) ops) :
    wp (all (FileOp.hooked cfg rgx) ops)
      (fun _ s' => Survives cfg d ops s'.fs.disk ∧ NoneDue (faultsOf s.faults) (tornLog cfg d ops) ∧
        ∃ t, Runs.run (CrashState.step cfg) (.start cfg d) ops = some t ∧ s'.fs = t.fs)
      (fun e s' => e = .killed ∧ ∃ done op rest s1, ops = done ++ op :: rest ∧
        all (FileOp.hooked cfg rgx) done s = .ok ⟨⟩ s1 ∧ op.hooked cfg rgx s1 = .error .killed s' ∧
        (¬ s.NoCrash ∧ (Survives cfg d done s'.fs.disk ∨ Survives cfg d (done ++ [op]) s'.fs.disk) ∨
          SurvivesTorn cfg (faultsOf s.faults) d done op s'.fs.disk)) s := by
  let shows : CrashState → FileOp → List Write := fun t op => (op.tornWrites cfg t.fs).map Prod.fst
  have hstart : (CrashState.start cfg d).Beside cfg d s [] s :=
    ⟨CrashState.inv_start h hd, .refl _, hfs, counts_nil rfl rfl rfl rfl⟩
  -- what one call keeps beside the plain run
  have hcall : ∀ (p : CrashState × List Write) (s1 : Lfs) (op : FileOp), p.1.Beside cfg d s p.2 s1 →
      (op.Proper cfg p.1.fs ∧ op.Roomy cfg p.1.fs ∧ op.CanTear cfg rgx (faultsOf s.faults) p.1.fs) →
      wp (op.hooked cfg rgx)
        (fun _ s2 => ∃ p', Runs.logged (CrashState.step cfg) shows p op = some p' ∧
          p'.1.Beside cfg d s p'.2 s2)
        (fun e s2 => p.1.Inv cfg ∧ e = .killed ∧ (¬ s.NoCrash ∧ p.1.Left cfg d op s2.fs.disk ∨
          ∃ x ps i, p.1.LeftTorn cfg d (faultsOf s.faults) p.2 op x ps i s2.fs.disk)) s1 := by
    rintro ⟨t, log⟩ s1 op ht ⟨hproper, hroom, htear⟩
    refine wp_mono (ht.hooked h hlru hs hlock hproper hroom htear) ?_ fun e s2 he => ⟨ht.inv, he⟩
    rintro _ s2 ⟨t', hstep, ht'⟩
    exact ⟨(t', _), by rw [Runs.logged, hstep]; rfl, ht'⟩
  -- the log of the run is that of the calls done
  have hlog : ∀ {done : List FileOp} {p : CrashState × List Write},
      Runs.run (Runs.logged (CrashState.step cfg) shows) (.start cfg d, []) done = some p →
      Runs.run (CrashState.step cfg) (.start cfg d) done = some p.1 ∧ p.2 = tornLog cfg d done := by
    intro done p hp
    rw [Runs.run_logged] at hp
    obtain ⟨t, ht, rfl⟩ := Option.map_eq_some_iff.mp hp
    exact ⟨ht, List.nil_append _⟩
  refine wp_mono (wp_all_run hcall hstart (hops.logged [])) ?_ ?_
  · -- all calls were served
    rintro _ s' ⟨⟨t, log⟩, hrun, ht⟩
    obtain ⟨hrun, rfl⟩ := hlog hrun
    exact ⟨ht.survives h hrun, ht.counts.noneDue, t, hrun, ht.fs⟩
  · -- one of them was killed
    rintro e s' ⟨done, op, rest, ⟨t, log⟩, s1, hsplit, hrun, hdone, hhalt, hinv, rfl, hleft⟩
    obtain ⟨hrun, rfl⟩ := hlog hrun
    refine ⟨rfl, done, op, rest, s1, hsplit, hdone, hhalt, ?_⟩
    rcases hleft with ⟨hcrash, hleft⟩ | ⟨x, ps, i, hleft⟩
    · exact .inl ⟨hcrash, hleft.survives h hinv hrun⟩
    · exact .inr (hleft.survives h hinv hrun)

lemma tearOnly_withTornOp (f : SplitWriteF) : (withTornOp f).TearOnly := by
  refine ⟨fun path x hx => ?_, fun timing op hop => ?_⟩
  · rw [withTornOp, Lfs.new, faultsOf, Map.lookup_single] at hx
    split_ifs at hx
    · rw [Option.getD_some, List.mem_singleton] at hx
      exact ⟨f, hx⟩
    · cases hx
  · rw [withTornOp, crashFaultsAt_new _ _ timing hop]
    rfl

/-- The first half of a write to the file can be torn off. -/
lemma canTear_writeFsync {op : FileOp} (hop : op ∈ writeFsync) (fs : FS) :
    op.CanTear (.tiny 2 false) literal (faultsOf (withTornOp firstHalf).faults) fs := by
  intro x hx f hf
  rcases List.mem_cons.mp hop with rfl | hop
  · have hx1 : x ∈ fs.writeTorn (.tiny 2 false) ["f"] abcd 4 0 { io := {}, fillIo :=
        {} } (some handle) := hx
    have htorn := mem_writeTorn hx1
    rw [htorn.path] at hf ⊢
    have hhalf : firstHalf = f := Option.some.inj hf
    have hstop := htorn.stop
    refine ⟨by decide, fun ps hps => ?_⟩
    rw [← hhalf] at hps
    exact SplitWriteF.inside_of_valid (.inl ⟨by decide, by decide⟩) (by decide) (by omega) hps
  · rw [List.mem_singleton.mp hop] at hx
    cases hx

lemma guarded_tornWriteFsync : Runs.Guarded (CrashState.step (.tiny 2 false))
    (fun t op => op.Proper (.tiny 2 false) t.fs ∧ op.Roomy (.tiny 2 false) t.fs ∧
      op.CanTear (.tiny 2 false) literal (faultsOf (withTornOp firstHalf).faults) t.fs)
    (.start (.tiny 2 false) oneFile) writeFsync := by
  obtain ⟨⟨hproper, hroom⟩, hrest⟩ := guarded_writeFsync
  refine ⟨⟨hproper, hroom, canTear_writeFsync List.mem_cons_self _⟩, fun s hs => ?_⟩
  obtain ⟨⟨hproper', hroom'⟩, -⟩ := hrest s hs
  exact ⟨⟨hproper', hroom', canTear_writeFsync (List.mem_cons_of_mem _ List.mem_cons_self) _⟩,
    fun _ _ => trivial⟩

/-- The first half of a write to a file reaches it before the `lfs_fsync`. -/
theorem torn_survives_write :
    wp (all (FileOp.hooked (.tiny 2 false) literal) writeFsync)
      (fun _ s' => Survives (.tiny 2 false) oneFile writeFsync s'.fs.disk ∧
        NoneDue (faultsOf (withTornOp firstHalf).faults)
        (tornLog (.tiny 2 false) oneFile writeFsync) ∧
        ∃ t, Runs.run (CrashState.step (.tiny 2 false)) (.start (.tiny 2 false) oneFile) writeFsync
          = some t ∧ s'.fs = t.fs)
      (fun e s' => e = .killed ∧ ∃ done op rest s1, writeFsync = done ++ op :: rest ∧
        all (FileOp.hooked (.tiny 2 false) literal) done (withTornOp firstHalf) = .ok ⟨⟩ s1 ∧
        op.hooked (.tiny 2 false) literal s1 = .error .killed s' ∧
        (¬ (withTornOp firstHalf).NoCrash ∧ (Survives (.tiny 2 false) oneFile done s'.fs.disk ∨
            Survives (.tiny 2 false) oneFile (done ++ [op]) s'.fs.disk) ∨
          SurvivesTorn (.tiny 2 false) (faultsOf (withTornOp firstHalf).faults)
            oneFile done op s'.fs.disk))
      (withTornOp firstHalf) :=
  torn_survives (Config.onePage_tiny 2 false) rfl _ (fun _ => Nat.zero_le _)
    (tearOnly_withTornOp firstHalf) rfl rfl guarded_tornWriteFsync

end LazyFS
