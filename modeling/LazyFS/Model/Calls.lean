import LazyFS.Model.Hooks

/-!
The operations of the file system (`lazyfs.cpp`) with their fault hooks and the shared lock.

* `FS.openFile`, `FS.lfsOpen`: the descriptor that an open leaves in the handle.
* `hooked`: what all operations with hooks have in common; each operation is this with its own body
  and its own strings.
* `lfsWrite`, `lfsTruncate`, `lfsOpen`: the operations that call one another inside the lock.
* `Call`, `Call.run`: one call that the application makes.

The bodies are those of `FileOps` and `NameOps`, taken apart where another operation is called.
-/

namespace LazyFS

open Program

namespace FS

variable (cfg : Config)

/-- The start of `lfs_write`: the item and the size before the write. -/
def writeStart (fs : FS) (path : Path) : Option (FS × String × ℕ) := do
  let (fs, stats) ← fs.lfsGetattr cfg path
  let inode := fs.cache.getOriginalInode path
  let fileSizeBefore :=
    match fs.cache.getContentMetadata inode with
    | none => stats.stSize
    | some m => m.size
  some (fs, inode, fileSizeBefore)

/-- The rest of `lfs_write` after the hole before the offset is filled. -/
def writeRest (fs : FS) (path : Path) (inode : String) (fileSizeBefore : ℕ) (buf : Mem)
    (size offset : ℕ) (fd : Fd) (io : WriteIo) : Option FS := do
  let w : WriteCtx :=
    { inode := inode
      fd := fd
      fdCaching := if io.openRdonly then fs.disk.openRead path else none
      cacheFull := fs.cacheFull cfg
      fileSizeBefore := fileSizeBefore
      buf := buf
      size := size
      offset := offset
      io := io }
  let fs ← writeLoop cfg w (blkRange cfg size offset) fs 0
  some (fs.writeMeta w)

/-- What `lfs_write` returns. -/
def writeRes (size : ℕ) : ℤ := if toInt size = -1 then -cfg.errno else toInt size

/-- `lfs_write` in its three parts. -/
lemma writeOn_eq (fs : FS) (fill : ℕ → FS → Option FS) (path : Path) (buf : Mem) (size offset : ℕ)
    (fd : Fd) (io : WriteIo) :
    fs.writeOn cfg fill path buf size offset fd false io
      = (fs.writeStart cfg path).bind fun r => (fill r.2.2 r.1).bind fun fs =>
          (fs.writeRest cfg path r.2.1 r.2.2 buf size offset fd io).map fun fs =>
            (fs, writeRes cfg size) := by
  have hmap : ∀ (x : Option FS) (f : FS → FS), (x.bind fun fs => some (f fs, writeRes cfg size))
      = (x.bind fun fs => some (f fs)).map fun fs => (fs, writeRes cfg size) := by
    intro x f
    cases x <;> rfl
  refine Eq.trans ?_ (Option.bind_assoc (fs.lfsGetattr cfg path) _ _).symm
  refine Option.bind_congr fun r _ => ?_
  obtain ⟨fs1, stats⟩ := r
  exact Option.bind_congr fun fs2 _ => hmap _ _

/-- The rest of `lfs_fsync` after `lfs_getattr`. -/
def fsyncRest (fs : FS) (path : Path) (isdatasync : Bool) (io : Engine.SyncIo) : Option (FS × ℤ) :=
  let inode := fs.cache.getOriginalInode path
  if fs.cache.hasContentCached inode then do
    let (c, d, res) ← fs.cache.syncOwner cfg fs.disk inode isdatasync path io
    some (⟨c, d⟩, res)
  else some (fs, if io.fsyncOk then 0 else -1)

lemma lfsFsync_eq (fs : FS) (path : Path) (isdatasync : Bool) (io : Engine.SyncIo) :
    fs.lfsFsync cfg path isdatasync io
      = (fs.lfsGetattr cfg path).bind fun r => r.1.fsyncRest cfg path isdatasync io := by
  simp only [lfsFsync, fsyncRest, Option.bind_eq_bind]

/-- `open (path, access_tmp)`: with `O_TRUNC` the file is only opened for writing. -/
def openFile (fs : FS) (path : Path) (flags : Disk.OpenFlags) : Option Fd :=
  if flags.trunc then fs.disk.openWrite path
  else (fs.disk.ino path).map fun i => ⟨i, flags.readable, flags.writable⟩

/-- `lfs_open`, with the descriptor of the handle. -/
def lfsOpen (fs : FS) (path : Path) (flags : Disk.OpenFlags) (io fillIo : WriteIo) :
    Option (FS × ℤ × Option Fd) :=
  match fs.openFile path flags with
  | none => some (fs, -cfg.errno, none)
  | some fd => do
      let (fs, _) ← fs.lfsGetattr cfg path
      let fs ← if flags.trunc then
        (fs.lfsTruncate cfg path 0 (some ⟨fd, false⟩) io fillIo).map Prod.fst
        else some fs
      some (fs, 0, some fd)

/-- `lfs_read` returns before its end: the file cannot be opened, or the offset is past the end. -/
def readReturnsEarly (fs : FS) (path : Path) (offset : ℕ) (fi : Option FileInfo) (now : Timespec) :
    Bool :=
  match (fi.map FileInfo.fh).or (fs.disk.openRead path) with
  | none => true
  | some _ =>
      match (fs.lfsGetattr cfg path).bind fun r =>
        r.1.readMeta cfg path (r.1.cache.getOriginalInode path) now with
      | none => true
      | some (_, metaSize) => (metaSize : ℤ) - 1 < offset

end FS

/-- How the backing calls of an operation that writes end: its own, those of the call that fills a
hole, and those of the torn writes. -/
structure WritesIo where
  io : WriteIo := {}
  fillIo : WriteIo := {}
  torn : Lfs.TornIo := {}
  fillTorn : Lfs.TornIo := {}

namespace Lfs

variable (cfg : Config) (rgx : Rgx)

/-- The hooks and the lock around the body of an operation.  A body that returns early skips the
hooks at the end. -/
def hooked (opname fromPath toPath afterTiming : String) (body : FaultM (ℤ × Bool)) : FaultM ℤ := do
  triggerCrashFault rgx opname "before" fromPath toPath
  triggerConfiguredClearFault cfg opname "before" fromPath toPath
  modify fun s => { s with sharedHolds := s.sharedHolds + 1 }
  let (res, reachesEnd) ← body
  if reachesEnd then do
    modify fun s => { s with trace := .took opname fromPath toPath :: s.trace }
    triggerCrashFault rgx opname "after" fromPath toPath
    triggerConfiguredClearFault cfg opname afterTiming fromPath toPath
  modify fun s => { s with sharedHolds := s.sharedHolds - 1 }
  pure res

/-- A body without faults of its own. -/
def plainBody (f : FS → Option (FS × ℤ × Bool)) : FaultM (ℤ × Bool) := liftFs f

/-- `lfs_getattr`, which has no hooks. -/
def lfsGetattr (path : Path) : FaultM ℤ :=
  liftFs fun fs => (fs.lfsGetattr cfg path).map fun r => (r.1, 0)

/-- `lfs_create`. -/
def lfsCreate (path : Path) (flags : Disk.OpenFlags) (newIno : ℕ) (now : Timespec) : FaultM ℤ :=
  hooked cfg rgx "create" path.str "" "after" <| plainBody fun fs =>
    (fs.lfsCreate cfg path flags newIno now).map fun r => (r.1, r.2.1, r.2.2.isSome)

/-- The torn writes at the end of `lfs_write`: at most one kind of fault is injected. -/
def tornWrites (w : Write) (io : TornIo) : FaultM PUnit := do
  let crashAdded ← persistWrite w io
  if crashAdded then pure ⟨⟩
  else do
    let _ ← splitWrite w io
    pure ⟨⟩

/-- `lfs_write` with a null handle, which opens the file itself and never fills a hole. -/
def lfsWriteNull (path : Path) (buf : Mem) (size offset : ℕ) (io : WriteIo) (torn : TornIo) :
    FaultM ℤ :=
  hooked cfg rgx "write" path.str "" "after" do
    let s ← get
    match s.fs.disk.openWrite path with
    | none => pure (-cfg.errno, false)
    | some fd => do
        let (inode, fileSizeBefore) ← liftFs (FS.writeStart cfg · path)
        liftFs fun fs => (fs.writeRest cfg path inode fileSizeBefore buf size offset fd io).map
          (·, ())
        tornWrites ⟨path, buf.read 0 size, offset⟩ torn
        pure (FS.writeRes cfg size, true)

/-- `lfs_write`. -/
def lfsWrite (path : Path) (buf : Mem) (size offset : ℕ) (fi : Option FileInfo) (io : WritesIo) :
    FaultM ℤ :=
  match fi with
  | none => lfsWriteNull cfg rgx path buf size offset io.io io.torn
  | some fi =>
      hooked cfg rgx "write" path.str "" "after" do
        let (inode, fileSizeBefore) ← liftFs (FS.writeStart cfg · path)
        if fi.directIo then
          modify fun s =>
            { s with
              fs := { s.fs with
                disk := (s.fs.disk.pwrite (some fi.fh) io.io.direct (buf.read 0 size) offset).2 } }
        else do
          if fileSizeBefore < offset then do
            let _ ← lfsWriteNull cfg rgx path (fun _ => 0) (offset - fileSizeBefore) fileSizeBefore
              io.fillIo io.fillTorn
          liftFs fun fs =>
            (fs.writeRest cfg path inode fileSizeBefore buf size offset fi.fh io.io).map (·, ())
        tornWrites ⟨path, buf.read 0 size, offset⟩ io.torn
        pure (FS.writeRes cfg size, true)

/-- `lfs_read`. -/
def lfsRead (path : Path) (buf : Mem) (size offset : ℕ) (fi : Option FileInfo) (io : ReadIo) :
    FaultM ℤ :=
  hooked cfg rgx "read" path.str "" "after" <| plainBody fun fs =>
    (fs.lfsRead cfg path buf size offset fi io).map fun r =>
      (r.1, r.2.1, !fs.readReturnsEarly cfg path offset fi io.now)

/-- `lfs_fsync`. -/
def lfsFsync (path : Path) (isdatasync : Bool) (io : Engine.SyncIo) : FaultM ℤ :=
  hooked cfg rgx "fsync" path.str "" "after" do
    liftFs fun fs => (fs.lfsGetattr cfg path).map fun r => (r.1, ())
    restartCounter path.str "write"
    checkAndDeletePendingwrite path.str
    let res ← liftFs (FS.fsyncRest cfg · path isdatasync io)
    pure (res, true)

/-- `lfs_truncate`. -/
def lfsTruncate (path : Path) (truncateSize : ℕ) (fi : Option FileInfo) (io : WritesIo) :
    FaultM ℤ :=
  hooked cfg rgx "truncate" path.str "" "after" do
    let inode ← liftFs fun fs =>
      (fs.lfsGetattr cfg path).bind fun r => r.1.truncateInode cfg path fi
    match inode with
    | none => pure (-1, false)
    | some inode => do
        let s ← get
        let previousSize := ((s.fs.cache.getContentMetadata inode).map Metadata.size).getD 0
        if previousSize < truncateSize then do
          let addBytesTotal := truncateSize - previousSize
          let r ← lfsWrite cfg rgx path (fun _ => 0) addBytesTotal previousSize fi io
          if r ≠ addBytesTotal then
            modify fun s => { s with fs := s.fs.backingTruncate path fi truncateSize }
        else if truncateSize < previousSize then
          liftFs fun fs => (fs.cache.truncateItem cfg path.str truncateSize).map fun r =>
            (fs.setCache r.1, ())
        modify fun s => { s with fs := s.fs.truncateMeta inode truncateSize io.io.now }
        if cfg.uninitInt = -1 then pure (-cfg.errno, false) else pure (0, true)

/-- `lfs_open`. -/
def lfsOpen (path : Path) (flags : Disk.OpenFlags) (io : WritesIo) : FaultM ℤ :=
  hooked cfg rgx "open" path.str "" "after" do
    let s ← get
    match s.fs.openFile path flags with
    | none => pure (-cfg.errno, false)
    | some fd => do
        liftFs fun fs => (fs.lfsGetattr cfg path).map fun r => (r.1, ())
        if flags.trunc then do
          let _ ← lfsTruncate cfg rgx path 0 (some ⟨fd, false⟩) io
        pure (0, true)

/-- `lfs_access`; `allowed` is what the permissions say. -/
def lfsAccess (path : Path) (allowed : Bool) : FaultM ℤ :=
  hooked cfg rgx "access" path.str "" "after" <| plainBody fun fs =>
    let ok := allowed && (fs.disk.entries.lookup path).isSome
    some (fs, if ok then 0 else -cfg.errno, ok)

/-- `lfs_rename`. -/
def lfsRename (resolve : Path → Resolved) (source dest : Path) : FaultM ℤ :=
  hooked cfg rgx "rename" source.str dest.str "after" <| plainBody fun fs =>
    some ((fs.lfsRename cfg resolve source dest).1, (fs.lfsRename cfg resolve source dest).2,
      (fs.disk.rename source dest).isSome)

/-- `lfs_link`. -/
def lfsLink (source dest : Path) : FaultM ℤ :=
  hooked cfg rgx "link" source.str dest.str "after" <| plainBody fun fs =>
    some ((fs.lfsLink cfg source dest).1, (fs.lfsLink cfg source dest).2,
      (fs.disk.link source dest).isSome)

/-- `lfs_symlink`, with the text of the link. -/
def lfsSymlink (target : String) (dest : Path) (newIno : ℕ) : FaultM ℤ :=
  hooked cfg rgx "symlink" target dest.str "after" <| plainBody fun fs =>
    some ((fs.lfsSymlink cfg dest newIno).1, (fs.lfsSymlink cfg dest newIno).2,
      (fs.disk.symlink dest newIno).isSome)

/-- `lfs_unlink`.  The hook at its end is called with the timing of the one at its start. -/
def lfsUnlink (path : Path) : FaultM ℤ :=
  hooked cfg rgx "unlink" path.str "" "before" <| plainBody fun fs =>
    some ((fs.lfsUnlink cfg path).1, (fs.lfsUnlink cfg path).2, (fs.disk.unlink path).isSome)

end Lfs

/-- A call of the application. -/
inductive Call where
  | getattr (path : Path)
  | create (path : Path) (flags : Disk.OpenFlags) (newIno : ℕ) (now : Timespec)
  | open (path : Path) (flags : Disk.OpenFlags) (io : WritesIo)
  | read (path : Path) (buf : Mem) (size offset : ℕ) (fi : Option FileInfo) (io : ReadIo)
  | write (path : Path) (buf : Mem) (size offset : ℕ) (fi : FileInfo) (io : WritesIo)
  | truncate (path : Path) (size : ℕ) (fi : Option FileInfo) (io : WritesIo)
  | fsync (path : Path) (isdatasync : Bool) (io : Engine.SyncIo)
  | access (path : Path) (allowed : Bool)
  | rename (resolve : Path → Resolved) (source dest : Path)
  | link (source dest : Path)
  | symlink (target : String) (dest : Path) (newIno : ℕ)
  | unlink (path : Path)

namespace Call

/-- A call made from outside every other operation. -/
def run (cfg : Config) (rgx : Rgx) : Call → FaultM ℤ
  | getattr path => Lfs.lfsGetattr cfg path
  | create path flags newIno now => Lfs.lfsCreate cfg rgx path flags newIno now
  | .open path flags io => Lfs.lfsOpen cfg rgx path flags io
  | read path buf size offset fi io => Lfs.lfsRead cfg rgx path buf size offset fi io
  | write path buf size offset fi io => Lfs.lfsWrite cfg rgx path buf size offset (some fi) io
  | truncate path size fi io => Lfs.lfsTruncate cfg rgx path size fi io
  | fsync path isdatasync io => Lfs.lfsFsync cfg rgx path isdatasync io
  | access path allowed => Lfs.lfsAccess cfg rgx path allowed
  | rename resolve source dest => Lfs.lfsRename cfg rgx resolve source dest
  | link source dest => Lfs.lfsLink cfg rgx source dest
  | symlink target dest newIno => Lfs.lfsSymlink cfg rgx target dest newIno
  | unlink path => Lfs.lfsUnlink cfg rgx path

end Call

end LazyFS
