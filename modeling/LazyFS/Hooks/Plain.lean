import LazyFS.Hooks.Marks

/-!
Calls with hooks and the plain file system.

* `Call.plain`: a call on the file system alone, without hooks.
* `Lfs.CrashOnly`: no fault but crash faults is registered.
* `WriteStage`, `TruncateStage`, `OpenStage`, `Call.Stage`: the file systems that the hooks of a
  call see.
* `FS.nullSteps`, `FS.writeSteps`, `FS.truncateSteps`, `FS.openSteps`, `FS.fsyncSteps`: the
  operations of several parts, as those with hooks take them apart.
-/

namespace LazyFS

/-- A call on the file system alone. -/
def Call.plain (cfg : Config) (fs : FS) : Call → Option (FS × ℤ)
  | getattr path => (fs.lfsGetattr cfg path).map fun r => (r.1, 0)
  | create path flags newIno now => (fs.lfsCreate cfg path flags newIno now).map fun r =>
    (r.1, r.2.1)
  | .open path flags io => (fs.lfsOpen cfg path flags io.io io.fillIo).map fun r => (r.1, r.2.1)
  | read path buf size offset fi io =>
      (fs.lfsRead cfg path buf size offset fi io).map fun r => (r.1, r.2.1)
  | write path buf size offset fi io =>
    fs.lfsWrite cfg path buf size offset (some fi) io.io io.fillIo
  | truncate path size fi io => fs.lfsTruncate cfg path size fi io.io io.fillIo
  | fsync path isdatasync io => fs.lfsFsync cfg path isdatasync io
  | access path allowed =>
      some (fs, if allowed && (fs.disk.entries.lookup path).isSome then 0 else -cfg.errno)
  | rename resolve source dest => some (fs.lfsRename cfg resolve source dest)
  | link source dest => some (fs.lfsLink cfg source dest)
  | symlink _ dest newIno => some (fs.lfsSymlink cfg dest newIno)
  | unlink path => some (fs.lfsUnlink cfg path)

/-! ### Only crash faults -/

namespace Lfs

/-- No fault but crash faults is registered, and the tables of crash faults know every operation. -/
structure CrashOnly (s : Lfs) : Prop where
  none : ∀ path, faultsOf s.faults path = []
  known : ∀ timing, ∀ op ∈ allowCrashFsOperations, (s.crashFaultsAt timing op).isSome

/-- No crash fault is registered either. -/
def NoCrash (s : Lfs) : Prop :=
  ∀ timing, ∀ op ∈ allowCrashFsOperations, s.crashFaultsAt timing op = some []

/-- The crash faults and the lock stay as they are, and no other fault comes up. -/
structure Alike (s s' : Lfs) : Prop where
  none : ∀ path, faultsOf s'.faults path = []
  crash : ∀ timing op, s'.crashFaultsAt timing op = s.crashFaultsAt timing op
  holds : s'.sharedHolds = s.sharedHolds

variable {s s' s'' : Lfs}

lemma Alike.trans (h : Alike s s') (h' : Alike s' s'') : Alike s s'' :=
  ⟨h'.none, fun timing op => (h'.crash timing op).trans (h.crash timing op), h'.holds.trans h.holds⟩

lemma Alike.crashOnly (h : Alike s s') (hs : s.CrashOnly) : s'.CrashOnly :=
  ⟨h.none, fun timing op hop => by rw [h.crash]; exact hs.known timing op hop⟩

lemma Alike.noCrash (h : Alike s s') : s'.NoCrash ↔ s.NoCrash := by
  simp only [NoCrash, h.crash]

/-- Everything but the faults may change. -/
lemma CrashOnly.alike (hs : s.CrashOnly) (h : s'.faults = s.faults)
    (hb : s'.crashFaultsBefore = s.crashFaultsBefore)
    (ha : s'.crashFaultsAfter = s.crashFaultsAfter) (hh : s'.sharedHolds = s.sharedHolds) :
    Alike s s' :=
  ⟨fun path => by rw [h]; exact hs.none path,
    fun timing op => by rw [crashFaultsAt, crashFaultsAt, hb, ha], hh⟩

/-- A fresh `LazyFS` without faults. -/
lemma crashOnly_new (fs : FS) : (Lfs.new fs ∅).CrashOnly :=
  ⟨fun path => by rw [faultsOf, Lfs.new, AList.lookup_empty, Option.getD_none],
    fun timing op hop => by rw [crashFaultsAt_new fs ∅ timing hop]; rfl⟩

end Lfs

/-! ### The stages of a call -/

/-- The file systems that the hooks of `lfs_write` see: the one it starts from, those before and
after the hole is filled, and the one it leaves. -/
inductive WriteStage (cfg : Config) (fs : FS) (path : Path) (buf : Mem) (size offset : ℕ)
    (fi : Option FileInfo) (io : WritesIo) : FS → Prop where
  | start : WriteStage cfg fs path buf size offset fi io fs
  | hole {fs1 : FS} {inode : String} {before : ℕ} : (∃ f, fi = some f ∧ f.directIo = false) →
      fs.writeStart cfg path = some (fs1, inode, before) → before < offset →
      WriteStage cfg fs path buf size offset fi io fs1
  | filled {fs1 fs2 : FS} {inode : String} {before : ℕ} {r : ℤ} :
      (∃ f, fi = some f ∧ f.directIo = false) →
      fs.writeStart cfg path = some (fs1, inode, before) → before < offset →
      fs1.lfsWriteNull cfg path (fun _ => 0) (offset - before) before io.fillIo = some (fs2, r) →
      WriteStage cfg fs path buf size offset fi io fs2
  | done {fs' : FS} {r : ℤ} : fs.lfsWrite cfg path buf size offset fi io.io io.fillIo
      = some (fs', r) →
      WriteStage cfg fs path buf size offset fi io fs'

/-- Those of `lfs_truncate`: a truncation that grows the file writes zeros. -/
inductive TruncateStage (cfg : Config) (fs : FS) (path : Path) (n : ℕ) (fi : Option FileInfo)
    (io : WritesIo) : FS → Prop where
  | start : TruncateStage cfg fs path n fi io fs
  | grow {fs1 fs2 : FS} {inode : String} {before : ℕ} :
      (fs.lfsGetattr cfg path).bind (fun r => r.1.truncateInode cfg path fi)
        = some (fs1, some inode) →
      before = ((fs1.cache.getContentMetadata inode).map Metadata.size).getD 0 → before < n →
      WriteStage cfg fs1 path (fun _ => 0) (n - before) before fi io fs2 →
      TruncateStage cfg fs path n fi io fs2
  | done {fs' : FS} {r : ℤ} : fs.lfsTruncate cfg path n fi io.io io.fillIo = some (fs', r) →
      TruncateStage cfg fs path n fi io fs'

/-- Those of `lfs_open`, which may truncate. -/
inductive OpenStage (cfg : Config) (fs : FS) (path : Path) (flags : Disk.OpenFlags)
    (io : WritesIo) :
    FS → Prop where
  | start : OpenStage cfg fs path flags io fs
  | cut {fd : Fd} {fs1 fs2 : FS} {r : StatRes} : fs.openFile path flags = some fd →
      flags.trunc = true → fs.lfsGetattr cfg path = some (fs1, r) →
      TruncateStage cfg fs1 path 0 (some ⟨fd, false⟩) io fs2 → OpenStage cfg fs path flags io fs2
  | done {fs' : FS} {r : ℤ} {fd : Option Fd} :
      fs.lfsOpen cfg path flags io.io io.fillIo = some (fs', r, fd) →
      OpenStage cfg fs path flags io fs'

/-- The file systems at which a call can be killed. -/
def Call.Stage (cfg : Config) (fs : FS) (c : Call) (fs' : FS) : Prop :=
  match c with
  | write path buf size offset fi io => WriteStage cfg fs path buf size offset (some fi) io fs'
  | truncate path n fi io => TruncateStage cfg fs path n fi io fs'
  | .open path flags io => OpenStage cfg fs path flags io fs'
  | c => fs' = fs ∨ ∃ r, c.plain cfg fs = some (fs', r)

/-- `lfs_write` with a null handle on the plain file system, as the operation with hooks takes it
apart. -/
def FS.nullSteps (cfg : Config) (fs : FS) (path : Path) (buf : Mem) (size offset : ℕ)
    (io : WriteIo) :
    Option (FS × ℤ × Bool) :=
  (fs.disk.openWrite path).elim (some (fs, -cfg.errno, false)) fun fd =>
    (fs.writeStart cfg path).bind fun r =>
      (r.1.writeRest cfg path r.2.1 r.2.2 buf size offset fd io).map fun fs =>
        (fs, FS.writeRes cfg size, true)

lemma FS.nullSteps_eq (cfg : Config) (fs : FS) (path : Path) (buf : Mem) (size offset : ℕ)
    (io : WriteIo) : (fs.nullSteps cfg path buf size offset io).map (fun r => (r.1, r.2.1))
      = fs.lfsWriteNull cfg path buf size offset io := by
  rw [FS.lfsWriteNull, FS.nullSteps]
  cases fs.disk.openWrite path with
  | none => rfl
  | some fd =>
      dsimp only
      rw [Option.elim_some, FS.writeOn_eq, Option.map_bind]
      refine Option.bind_congr fun r _ => ?_
      rw [Function.comp_apply, Option.map_map, Option.bind_some]
      rfl

/-- `lfs_write` on the plain file system, as the operation with hooks takes it apart. -/
def FS.writeSteps (cfg : Config) (fs : FS) (path : Path) (buf : Mem) (size offset : ℕ)
    (fi : FileInfo) (io : WritesIo) : Option (FS × ℤ × Bool) :=
  (fs.writeStart cfg path).bind fun r =>
    (if fi.directIo then
      some { r.1 with
        disk := (r.1.disk.pwrite (some fi.fh) io.io.direct (buf.read 0 size) offset).2 }
    else
      (if r.2.2 < offset then
        (r.1.lfsWriteNull cfg path (fun _ => 0) (offset - r.2.2) r.2.2 io.fillIo).map Prod.fst
      else some r.1).bind fun fs =>
        fs.writeRest cfg path r.2.1 r.2.2 buf size offset fi.fh io.io).map
    fun fs => (fs, FS.writeRes cfg size, true)

lemma FS.writeSteps_eq (cfg : Config) (fs : FS) (path : Path) (buf : Mem) (size offset : ℕ)
    (fi : FileInfo) (io : WritesIo) :
    (fs.writeSteps cfg path buf size offset fi io).map (fun r => (r.1, r.2.1))
      = fs.lfsWrite cfg path buf size offset (some fi) io.io io.fillIo := by
  rw [FS.lfsWrite, FS.writeSteps]
  cases hd : fi.directIo with
  | false =>
      rw [FS.writeOn_eq, Option.map_bind]
      refine Option.bind_congr fun r _ => ?_
      rw [Function.comp_apply, Option.map_map, if_neg Bool.false_ne_true, Option.map_bind]
      rfl
  | true =>
      rw [FS.writeOn, FS.writeStart, Option.bind_eq_bind, Option.bind_eq_bind, Option.bind_assoc,
        Option.map_bind]
      refine Option.bind_congr fun r _ => ?_
      obtain ⟨fs1, stats⟩ := r
      rw [Function.comp_apply]
      dsimp only
      rw [Option.bind_some, if_pos rfl, if_pos rfl]
      rfl

/-- `lfs_truncate` on the plain file system, as the operation with hooks takes it apart. -/
def FS.truncateSteps (cfg : Config) (fs : FS) (path : Path) (n : ℕ) (fi : Option FileInfo)
    (io : WritesIo) :
    Option (FS × ℤ × Bool) :=
  ((fs.lfsGetattr cfg path).bind fun r => r.1.truncateInode cfg path fi).bind fun r =>
    match r.2 with
    | none => some (r.1, -1, false)
    | some inode =>
        (r.1.changeSize cfg path n (((r.1.cache.getContentMetadata inode).map Metadata.size).getD 0)
          fi
          io.io io.fillIo).map fun fs =>
            (fs.truncateMeta inode n io.io.now, if cfg.uninitInt = -1 then
              (-cfg.errno, false) else (0, true))

lemma FS.truncateSteps_eq (cfg : Config) (fs : FS) (path : Path) (n : ℕ) (fi : Option FileInfo)
    (io : WritesIo) :
    (fs.truncateSteps cfg path n fi io).map (fun r => (r.1, r.2.1))
      = fs.lfsTruncate cfg path n fi io.io io.fillIo := by
  rw [FS.lfsTruncate, FS.truncateSteps, Option.bind_assoc, Option.map_bind]
  simp only [Option.bind_eq_bind]
  refine Option.bind_congr fun r _ => ?_
  rw [Function.comp_apply, Option.map_bind]
  refine Option.bind_congr fun r _ => ?_
  obtain ⟨fs1, inode⟩ := r
  cases inode with
  | none => rfl
  | some inode =>
      dsimp only [Function.comp_def]
      rw [Option.map_map, Option.map_eq_bind]
      refine Option.bind_congr fun fs2 _ => ?_
      dsimp only [Function.comp_def]
      split_ifs
      · rfl
      · rfl

/-- `lfs_open` on the plain file system, as the operation with hooks takes it apart. -/
def FS.openSteps (cfg : Config) (fs : FS) (path : Path) (flags : Disk.OpenFlags) (io : WritesIo) :
    Option (FS × ℤ × Bool) :=
  match fs.openFile path flags with
  | none => some (fs, -cfg.errno, false)
  | some fd => (fs.lfsGetattr cfg path).bind fun r =>
      (if flags.trunc then
        (r.1.lfsTruncate cfg path 0 (some ⟨fd, false⟩) io.io io.fillIo).map Prod.fst
        else some r.1).map fun fs => (fs, 0, true)

lemma FS.openSteps_eq (cfg : Config) (fs : FS) (path : Path) (flags : Disk.OpenFlags)
    (io : WritesIo) : (fs.openSteps cfg path flags io).map (fun r => (r.1, r.2.1))
      = (fs.lfsOpen cfg path flags io.io io.fillIo).map fun r => (r.1, r.2.1) := by
  rw [FS.lfsOpen, FS.openSteps]
  cases fs.openFile path flags with
  | none => rfl
  | some fd =>
      dsimp only
      simp only [Option.bind_eq_bind, Option.map_bind]
      refine Option.bind_congr fun r _ => ?_
      rw [Function.comp_apply, Function.comp_apply, Option.map_map]
      by_cases ht : flags.trunc = true
      · rw [if_pos ht, if_pos ht]
        cases r.1.lfsTruncate cfg path 0 (some ⟨fd, false⟩) io.io io.fillIo with
        | none => rfl
        | some r => rfl
      · rw [if_neg ht, if_neg ht]
        rfl

/-- `lfs_fsync` on the plain file system, as the operation with hooks takes it apart. -/
def FS.fsyncSteps (cfg : Config) (fs : FS) (path : Path) (isdatasync : Bool) (io : Engine.SyncIo) :
    Option (FS × ℤ × Bool) :=
  (fs.lfsGetattr cfg path).bind fun r =>
    (r.1.fsyncRest cfg path isdatasync io).map fun r => (r.1, r.2, true)

lemma FS.fsyncSteps_eq (cfg : Config) (fs : FS) (path : Path) (isdatasync : Bool)
    (io : Engine.SyncIo) : (fs.fsyncSteps cfg path isdatasync io).map (fun r => (r.1, r.2.1))
      = fs.lfsFsync cfg path isdatasync io := by
  rw [FS.lfsFsync_eq, FS.fsyncSteps, Option.map_bind]
  refine Option.bind_congr fun r _ => ?_
  rw [Function.comp_apply, Option.map_map]
  exact Option.map_id'

end LazyFS
