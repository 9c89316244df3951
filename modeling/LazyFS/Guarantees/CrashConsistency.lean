import LazyFS.File.Kept

/-!
**Crash consistency**: after a clear of the cache every file is what it was at its last `lfs_fsync`.

* `CrashState`: the file system, the contents of its files and their contents when last synced;
  `FileOp.synced` is what a call makes of the latter.
* `FS.Displays`: `lfs_getattr` and `lfs_read` show the given contents.
* `CrashState.Inv`: with enough free pages the backing files are the synced contents, whatever is
  cached.
* `crashConsistent`: every run of calls succeeds, and what is read after a clear that follows it is
  what was synced.
-/

namespace LazyFS

open Engine

variable {cfg : Config}

/-- The file system, the contents of the files and their contents at their last `lfs_fsync`. -/
structure CrashState where
  fs : FS
  contents : ℕ → List UInt8
  synced : ℕ → List UInt8

/-- The contents at the last `lfs_fsync`, after a call. -/
def FileOp.synced (d : Disk) (c synced : ℕ → List UInt8) : FileOp → ℕ → List UInt8
  | fsync path .. => match d.ino path with
      | some i => Function.update synced i (c i)
      | none => synced
  | _ => synced

/-- One call; a clear brings the synced contents back. -/
def CrashState.step (cfg : Config) (s : CrashState) (op : FileOp) : Option CrashState :=
  (op.run cfg s.fs).map fun r =>
    ⟨r.1, op.logical s.fs.disk s.synced s.contents, op.synced s.fs.disk s.contents s.synced⟩

/-- A fresh cache over the files of a backing file system. -/
def CrashState.start (cfg : Config) (d : Disk) : CrashState := ⟨⟨.new cfg, d⟩, d.bytes, d.bytes⟩

/-- A call that only looks at files. -/
def FileOp.Observes : FileOp → Prop
  | getattr _ | read .. => True
  | _ => False

/-- The file at `path` is shown with the contents `c`. -/
structure FS.Displays (cfg : Config) (fs : FS) (path : Path) (i : ℕ) (c : List UInt8) : Prop where
  size : ∃ fs' st, fs.lfsGetattr cfg path = some (fs', .reg st) ∧ st.stSize = c.length
  bytes : ∀ (buf : Mem) (size offset : ℕ) (fi : Option FileInfo) (io : ReadIo), 0 < size →
    offset + size ≤ 2 ^ 63 → FS.ReadHandle i fi → FS.ReadIo.Ok io →
    ∃ fs' r buf', fs.lfsRead cfg path buf size offset fi io = some (fs', r, buf') ∧
      r = FS.writeResult cfg (min size (c.length - offset)) ∧
      buf'.read 0 (min size (c.length - offset)) = Bytes.slice c offset size

/-- A kept file with nothing past its end is shown with its contents. -/
lemma FS.Shows.displays {fs : FS} {c : ℕ → List UInt8} (hs : FS.Keeps cfg fs c)
    (hB : 0 < cfg.ioBlockSize) {path : Path} {i : ℕ} (hi : fs.disk.ino path = some i)
    (hcl : FileView.Clamped cfg.ioBlockSize (c i) (fs.file cfg i)) :
    fs.Displays cfg path i (c i) := by
  refine ⟨?_, fun buf size offset fi io hsize hw hfi hio => ?_⟩
  · obtain ⟨fs', st, hget, hst, -⟩ := hs.getattr hi
    exact ⟨fs', st, hget, hst⟩
  · obtain ⟨fs', r, buf', hread, -, -, -, -, hexact⟩ := hs.read hB hi (hs.file i).holds
      (hs.file i).bounded buf hsize (hw.trans (by norm_num)) hfi hio
    obtain ⟨h1, h2⟩ := hexact hcl
    exact ⟨fs', r, buf', hread, h1, h2⟩

/-! ### What is in the backing file system -/

/-- Every file is kept, and the backing files are the synced contents. -/
structure CrashState.Inv (cfg : Config) (s : CrashState) : Prop where
  keeps : FS.Keeps cfg s.fs s.contents
  disk : ∀ i, s.fs.disk.bytes i = s.synced i

/-- A file whose view does not change keeps its backing file. -/
lemma FS.bytes_eq_of_file {fs fs' : FS} {i : ℕ} (h : fs'.file cfg i = fs.file cfg i) :
    fs'.disk.bytes i = fs.disk.bytes i := congrArg FileView.disk h

/-- The state after a call. -/
lemma CrashState.Inv.next {s : CrashState} {op : FileOp} {fs' : FS} {res : FileRes}
    (hrun : op.run cfg s.fs = some (fs', res))
    (hk : FS.Keeps cfg fs' (op.logical s.fs.disk s.synced s.contents))
    (hd : ∀ j, fs'.disk.bytes j = op.synced s.fs.disk s.contents s.synced j) :
    ∃ s', s.step cfg op = some s' ∧ s'.Inv cfg :=
  ⟨_, by rw [CrashState.step, hrun, Option.map_some], hk, hd⟩

/-- **One call**: it succeeds, and only `lfs_fsync` changes a backing file. -/
lemma CrashState.Inv.step (h : OnePage cfg) (hlru : cfg.applyLruEviction = false) {s : CrashState}
    (hs : s.Inv cfg) {op : FileOp} (hop : op.Proper cfg s.fs) (hroom : op.Roomy cfg s.fs) :
    ∃ s', s.step cfg op = some s' ∧ s'.Inv cfg := by
  have hB := h.pos
  have hk := hs.keeps
  -- what each call does to the files shown, and that only `fsync` reaches the disk
  cases op with
  | getattr path =>
      obtain ⟨i, hi⟩ := hop
      obtain ⟨fs', st, hget, -, hopen, hk'⟩ := hk.getattr hi
      refine Inv.next (by rw [FileOp.run, hget, Option.map_some]) hk' fun j => ?_
      exact (congrFun (congrArg Disk.bytes hopen.disk) j).trans (hs.disk j)
  | read path buf size offset fi io =>
      obtain ⟨i, hi, hsize, hw, hfi, hio⟩ := hop
      obtain ⟨fs', r, buf', hread, hfile, -, ht, hk', -⟩ := hk.read hB hi (hk.file i).holds
        (hk.file i).bounded buf hsize (hw.trans (by norm_num)) hfi hio
      refine Inv.next (by rw [FileOp.run, hread, Option.map_some]) hk' fun j => ?_
      refine Eq.trans ?_ (hs.disk j)
      by_cases hj : j = i
      · rw [hj]
        exact FS.bytes_eq_of_file hfile
      · exact FS.bytes_eq_of_file (ht.file j hj)
  | write path buf size offset fi io fillIo =>
      obtain ⟨i, hi, hsize, hlen, hfi, hio, hfillIo⟩ := hop
      have hread : (buf.read 0 size).length = size := Mem.length_read _ _ _
      have hne : buf.read 0 size ≠ [] := by
        rw [← List.length_pos_iff, hread]
        exact hsize
      obtain ⟨fs', hwrite, hview, ht, hk'⟩ := hk.write h hi buf hsize
        (hlen.trans ((maxSize_le_offT _).trans (by norm_num))) hfi hio hfillIo
        (FS.enoughIfLru_of_off hlru _ _ _)
        (FileView.Kept.writeAt (s := (s.fs.file cfg i, s.fs.free)) (hk.file i) hB hne
          (by rw [hread]; exact hlen))
      have hroom' := hroom i hi
      rw [hk.size] at hroom'
      have hdisk : (fs'.file cfg i).disk = (s.fs.file cfg i).disk := by
        rw [(Prod.mk.inj hview).1]
        exact FileView.Roomy.disk_writeAt (s := (s.fs.file cfg i, s.fs.free)) hB hne
          (by rw [hread]; exact hroom')
      refine Inv.next (by rw [FileOp.run, hwrite, Option.map_some]) ?_ fun j => ?_
      · rw [FileOp.logical, hi]
        exact hk'
      · refine Eq.trans ?_ (hs.disk j)
        by_cases hj : j = i
        · rw [hj]
          exact hdisk
        · exact FS.bytes_eq_of_file (ht.file j hj)
  | truncate path n fi io fillIo =>
      obtain ⟨i, hi, hgrow, hlen, hfi, hio, hfillIo⟩ := hop
      rw [hk.size] at hgrow
      obtain ⟨fs', r, htrunc, hview, ht, hk'⟩ := hk.truncate h hi
        (hlen.trans ((maxSize_le_offT _).trans (by norm_num))) hgrow hfi hio hfillIo
        (fun _ => FS.enoughIfLru_of_off hlru _ _ _)
        (FileView.Kept.resize (s := (s.fs.file cfg i, s.fs.free)) (hk.file i) hB hlen)
      have hroom' := hroom i hi
      rw [hk.size] at hroom'
      have hdisk : (fs'.file cfg i).disk = (s.fs.file cfg i).disk := by
        rw [(Prod.mk.inj hview).1]
        exact FileView.Roomy.disk_fillTo (s := (s.fs.file cfg i, s.fs.free)) hroom'
      refine Inv.next (by rw [FileOp.run, htrunc, Option.map_some]) ?_ fun j => ?_
      · rw [FileOp.logical, hi]
        exact hk'
      · refine Eq.trans ?_ (hs.disk j)
        by_cases hj : j = i
        · rw [hj]
          exact hdisk
        · exact FS.bytes_eq_of_file (ht.file j hj)
  | fsync path isdatasync io =>
      obtain ⟨i, hi, hio⟩ := hop
      obtain ⟨fs', hsync, -, ht, hfile, hk'⟩ := hk.fsync_kept hi isdatasync hio
      refine Inv.next (by rw [FileOp.run, hsync, Option.map_some]) hk' fun j => ?_
      rw [FileOp.synced, hi]
      dsimp only
      by_cases hj : j = i
      · rw [hj, Function.update_self]
        exact congrArg FileView.disk hfile
      · rw [Function.update_of_ne hj, ← hs.disk]
        exact FS.bytes_eq_of_file (ht.file j hj)
  | clear =>
      have hk' := hk.clear h fun i => .bare (hk.file i).disk_le
      obtain ⟨-, hd, -⟩ := hk.sound.clearAllCache h
      have hfun : s.fs.disk.bytes = s.synced := funext hs.disk
      rw [hfun] at hk'
      exact Inv.next rfl hk' fun j => (congrFun (congrArg Disk.bytes hd) j).trans (hs.disk j)

/-- A fresh file system. -/
lemma CrashState.inv_start (h : OnePage cfg) {d : Disk}
    (hd : ∀ i, (d.bytes i).length ≤ maxSize cfg.ioBlockSize) : (CrashState.start cfg d).Inv cfg :=
  ⟨FS.shows_new h d fun i => .bare (hd i), fun _ => rfl⟩

/-! ### After a clear -/

/-- Nothing is resident, the contents are what was synced and the backing files are these. -/
structure CrashState.Cleared (cfg : Config) (synced : ℕ → List UInt8) (s : CrashState) : Prop where
  keeps : FS.Keeps cfg s.fs synced
  bare : ∀ i, s.fs.file cfg i = .bare (synced i)

/-- A clear. -/
lemma CrashState.Inv.cleared (h : OnePage cfg) {s : CrashState} (hs : s.Inv cfg) :
    ∃ s', s.step cfg .clear = some s' ∧ s'.Cleared cfg s.synced := by
  have hk' := hs.keeps.clear h fun i => .bare (hs.keeps.file i).disk_le
  obtain ⟨-, -, -, hfile, -⟩ := hs.keeps.sound.clearAllCache h
  have hfun : s.fs.disk.bytes = s.synced := funext hs.disk
  rw [hfun] at hk'
  exact ⟨_, rfl, hk', fun i => (hfile i).trans (congrArg FileView.bare (hs.disk i))⟩

/-- A call that looks at files leaves all of it as it is. -/
lemma CrashState.Cleared.step (h : OnePage cfg) {synced : ℕ → List UInt8} {s : CrashState}
    (hs : s.Cleared cfg synced) {op : FileOp} (hop : op.Proper cfg s.fs) (hobs : op.Observes) :
    ∃ s', s.step cfg op = some s' ∧ s'.Cleared cfg synced := by
  have hk := hs.keeps
  cases op with
  | getattr path =>
      obtain ⟨i, hi⟩ := hop
      obtain ⟨fs', st, hget, -, hopen, hk'⟩ := hk.getattr hi
      exact ⟨_, by rw [CrashState.step, FileOp.run, hget]; rfl, hk',
        fun j => (hopen.file j).trans (hs.bare j)⟩
  | read path buf size offset fi io =>
      obtain ⟨i, hi, hsize, hw, hfi, hio⟩ := hop
      obtain ⟨fs', r, buf', hread, hfile, -, ht, hk', -⟩ := hk.read h.pos hi (hk.file i).holds
        (hk.file i).bounded buf hsize (hw.trans (by norm_num)) hfi hio
      refine ⟨_, by rw [CrashState.step, FileOp.run, hread]; rfl, hk', fun j => ?_⟩
      by_cases hj : j = i
      · rw [hj]
        exact hfile.trans (hs.bare i)
      · exact (ht.file j hj).trans (hs.bare j)
  | write | truncate | fsync | clear => exact hobs.elim

/-- **Crash consistency.** Every run of calls with enough free pages succeeds, and after a clear at
its end, and after any calls that look at files, every file is what it was at its last
`lfs_fsync`. -/
theorem crashConsistent (h : OnePage cfg) (hlru : cfg.applyLruEviction = false) {d : Disk}
    (hd : ∀ i, (d.bytes i).length ≤ maxSize cfg.ioBlockSize) {ops : List FileOp}
    (hops : Runs.Guarded (CrashState.step cfg) (fun s op => op.Proper cfg s.fs ∧ op.Roomy cfg s.fs)
      (.start cfg d) ops) :
    ∃ s s', Runs.run (CrashState.step cfg) (.start cfg d) ops = some s ∧
      s.step cfg .clear = some s' ∧
      ∀ later, Runs.Guarded (CrashState.step cfg) (fun s op => op.Proper cfg s.fs ∧ op.Observes)
          s' later → ∃ s'', Runs.run (CrashState.step cfg) s' later = some s'' ∧
        ∀ path i, s''.fs.disk.ino path = some i → s''.fs.Displays cfg path i (s.synced i) := by
  obtain ⟨s, hrun, hs⟩ := Runs.run_of_guarded (P := fun s => s.Inv cfg)
    (fun s op hs hop => hs.step h hlru hop.1 hop.2) (CrashState.inv_start h hd) hops
  obtain ⟨s', hclear, hs'⟩ := hs.cleared h
  refine ⟨s, s', hrun, hclear, fun later hlater => ?_⟩
  obtain ⟨s'', hrun', hs''⟩ := Runs.run_of_guarded (P := fun t => t.Cleared cfg s.synced)
    (fun t op ht hop => ht.step h hop.1 hop.2) hs' hlater
  refine ⟨s'', hrun', fun path i hi => hs''.keeps.displays h.pos hi ?_⟩
  rw [hs''.bare i]
  exact FileView.clamped_bare

/-- The write of a block, and its `lfs_fsync`. -/
theorem crashConsistent_writeAbcd : ∃ s s',
    Runs.run (CrashState.step (.tiny 2 false)) (.start (.tiny 2 false) oneFile)
        [writeAbcd, .fsync ["f"] false {}] = some s ∧ s.step (.tiny 2 false) .clear = some s' ∧
      ∀ later, Runs.Guarded (CrashState.step (.tiny 2 false))
          (fun s op => op.Proper (.tiny 2 false) s.fs ∧ op.Observes) s' later →
        ∃ s'', Runs.run (CrashState.step (.tiny 2 false)) s' later = some s'' ∧
          ∀ path i, s''.fs.disk.ino path = some i →
            s''.fs.Displays (.tiny 2 false) path i (s.synced i) := by
  refine crashConsistent (Config.onePage_tiny 2 false) rfl (fun _ => Nat.zero_le _) ?_
  refine ⟨⟨writeAbcd_proper, fun i hi => ?_⟩, fun s hs =>
    ⟨⟨⟨1, ?_, ?_⟩, trivial⟩, fun _ _ => trivial⟩⟩
  · obtain rfl : 1 = i := Option.some.inj hi
    decide +kernel
  · have hi : ((CrashState.start (.tiny 2 false) oneFile).step (.tiny 2 false) writeAbcd).map
        (fun s => s.fs.disk.ino ["f"]) = some (some 1) := by decide +kernel
    rwa [hs, Option.map_some, Option.some.injEq] at hi
  · exact ⟨fun _ _ _ _ => ⟨rfl, fun _ => rfl⟩, .inl ⟨rfl, rfl⟩⟩

end LazyFS
