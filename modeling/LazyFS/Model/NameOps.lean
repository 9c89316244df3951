import LazyFS.Model.Directory
import LazyFS.Model.FileOps

/-!
The operations on names (`lazyfs.cpp`): `lfs_create`, `lfs_link`, `lfs_symlink`, `lfs_unlink`,
`lfs_utimens`, and `lfs_rename` with the listing of a directory that it renames file by file.

A symbolic link is resolved by the kernel when `opendir` or `stat` is called on it;
`Resolved` is what the call then finds.
-/

namespace LazyFS

/-- What a symbolic link resolves to: nothing that is a directory, or a directory that may be
empty, with the regular files that a listing of it reaches as paths below it. -/
inductive Resolved where
  | notDir
  | dir (isEmpty : Bool) (files : List Path)

namespace FS

variable (cfg : Config)

/-- `lfs_create`, with the descriptor stored in the handle. -/
def lfsCreate (fs : FS) (path : Path) (flags : Disk.OpenFlags) (newIno : ℕ) (now : Timespec) :
    Option (FS × ℤ × Option Fd) :=
  match fs.disk.create path flags newIno now with
  | none => some (fs, -cfg.errno, none)
  | some (d, fd) => do
      let (fs, stbuf) ← ({ fs with disk := d } : FS).lfsGetattr cfg path
      match stbuf with
      | .reg st =>
          let inode := inodeStr st.stIno
          let isNew := !fs.cache.hasContentCached inode
          let fs ← if isNew then fs.putNothing cfg inode else some fs
          let values := (if isNew ∨ flags.readable then [.atime] else []) ++
            (if flags.writable then [.mtime] else [])
          some (fs.updateMeta inode { Metadata.new with atim := now, mtim := now } values, 0,
            some fd)
      | _ => some (fs, 0, some fd)

/-- `lfs_link`. -/
def lfsLink (fs : FS) (source dest : Path) : FS × ℤ :=
  match fs.disk.link source dest with
  | none => (fs, -cfg.errno)
  | some d =>
      let fs : FS := { fs with disk := d }
      let inode := fs.cache.getOriginalInode source
      (if inode ≠ "" then fs.setCache (fs.cache.insertInodeMapping dest inode true) else fs, 0)

/-- `lfs_symlink`. -/
def lfsSymlink (fs : FS) (dest : Path) (newIno : ℕ) : FS × ℤ :=
  match fs.disk.symlink dest newIno with
  | none => (fs, -cfg.errno)
  | some d => ({ fs with disk := d }, 0)

/-- `lfs_utimens`, which does not touch the cache. -/
def lfsUtimens (fs : FS) (path : Path) (ts : Timespec × Timespec) (now : Timespec) : FS × ℤ :=
  match fs.disk.utimensat path ts now with
  | none => (fs, -cfg.errno)
  | some d => ({ fs with disk := d }, 0)

/-- `lfs_unlink`. -/
def lfsUnlink (fs : FS) (path : Path) : FS × ℤ :=
  let inode := fs.cache.getOriginalInode path
  let fs :=
    if inode ≠ "" then fs.setCache (fs.cache.removeCachedItem cfg inode path false).1 else fs
  match fs.disk.unlink path with
  | none => (fs, -cfg.errno)
  | some d =>
      let fs : FS := { fs with disk := d }
      (if inode = "" then fs.setCache (fs.cache.removeCachedItem cfg inode path false).1 else fs,
        0)

/-- `lfs_get_dir_filenames`: the regular files at any depth below a name, down to a depth that
no path exceeds. -/
def getDirFilenames (d : Disk) (resolve : Path → Resolved) : ℕ → Path → List Path
  | 0, _ => []
  | depth + 1, dirname =>
      match d.entries.lookup dirname with
      | some .dir =>
          (d.children dirname).flatMap fun basePath =>
            (if (d.ino basePath).isSome then [basePath] else []) ++
              getDirFilenames d resolve depth basePath
      | some (.symlink _) =>
          match resolve dirname with
          | .notDir => []
          | .dir _ files => files.map (dirname ++ ·)
      | _ => []

/-- A bound on the depth of the tree. -/
def depthBound (d : Disk) : ℕ := (d.entries.toList.map fun e => e.1.length + 1).sum + 1

/-- `stat` finds a directory, and `lfs_is_dir_empty` is `0` on it. -/
def isNonemptyDir (d : Disk) (resolve : Path → Resolved) (p : Path) : Bool :=
  match d.entries.lookup p with
  | some .dir => !(d.children p).isEmpty
  | some (.symlink _) =>
      match resolve p with
      | .notDir => false
      | .dir isEmpty _ => !isEmpty
  | _ => false

/-- `lfs_recursive_rename`: every regular file below `source` is renamed in the cache. -/
def lfsRecursiveRename (fs : FS) (resolve : Path → Resolved) (source dest : Path) : FS :=
  let fromDirFilepaths := getDirFilenames fs.disk resolve (depthBound fs.disk) source
  if isNonemptyDir fs.disk resolve dest then fs
  else
    fs.setCache (fromDirFilepaths.foldl
      (fun c it => c.renameItem cfg it (dest ++ it.drop source.length)) fs.cache)

/-- `lfs_rename` without flags: the cache first, whatever becomes of the backing call. -/
def lfsRename (fs : FS) (resolve : Path → Resolved) (source dest : Path) : FS × ℤ :=
  let inode := fs.cache.getOriginalInode source
  let fs :=
    if inode = "" then fs.lfsRecursiveRename cfg resolve source dest
    else fs.setCache (fs.cache.renameItem cfg source dest)
  match fs.disk.rename source dest with
  | none => (fs, -cfg.errno)
  | some d => ({ fs with disk := d }, 0)

end FS

end LazyFS
