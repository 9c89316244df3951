import LazyFS.Model.Config
import LazyFS.Model.Memory

/-!
The backing file system, the directory LazyFS is mounted over, and the system calls made on
it.

* `Disk`: the names, each naming a regular file by its inode number, a symbolic link or a
  directory, and the bytes and times of every inode.
* `Fate`: what becomes of one call: it transfers everything, only a part, or fails.
* `pread`, `pwrite` (also `pwritev`, on the concatenated buffers), `ftruncate`, and `lstat`
  through `Disk.entries`.  A call on a descriptor that is `-1` or that lacks the permission,
  or at a negative offset, fails.
-/

namespace LazyFS

/-- `struct timespec`. -/
structure Timespec where
  sec : ℤ
  nsec : ℤ
  deriving DecidableEq, Repr, Inhabited

namespace Timespec

/-- `UTIME_NOW` and `UTIME_OMIT`, values of `tv_nsec`. -/
def utimeNow : ℤ := 2 ^ 30 - 1

def utimeOmit : ℤ := 2 ^ 30 - 2

/-- The time that a call of `utimensat` leaves of a time. -/
def given (ts now old : Timespec) : Timespec :=
  if ts.nsec = utimeNow then now else if ts.nsec = utimeOmit then old else ts

/-- `TIMESPEC_TO_TIMEVAL`, which drops what is below the microsecond. -/
def micros (t : Timespec) : Timespec := ⟨t.sec, t.nsec / 1000 * 1000⟩

end Timespec

/-- What a name of the backing directory names. -/
inductive Obj where
  | file (ino : ℕ)
  | symlink (ino : ℕ)
  | dir
  deriving DecidableEq, Repr

/-- The times kept in an inode. -/
structure Times where
  atim : Timespec
  mtim : Timespec
  ctim : Timespec
  deriving DecidableEq, Repr, Inhabited

/-- The backing file system. -/
structure Disk where
  /-- The names, in the order in which `readdir` reports them. -/
  entries : Map Path Obj
  bytes : ℕ → List UInt8
  times : ℕ → Times
  /-- The number of sectors that hold a file with given bytes, `st_blocks`. -/
  sectors : List UInt8 → ℕ
  /-- The working directory of the process: a relative name is resolved in it. -/
  cwd : Path

/-- A backing file system without a name. -/
def Disk.empty : Disk := ⟨∅, fun _ => [], fun _ => default, List.length, []⟩

/-- An open descriptor of a regular file. -/
structure Fd where
  ino : ℕ
  readable : Bool
  writable : Bool
  deriving DecidableEq, Repr

/-- What becomes of one data transfer. -/
inductive Fate where
  | full
  | short (n : ℕ)
  | fail
  deriving DecidableEq, Repr

/-- The number of bytes transferred out of `n`, `none` for a result of `-1`. -/
def Fate.count : Fate → ℕ → Option ℕ
  | .full, n => some n
  | .short k, n => some (min k n)
  | .fail, _ => none

namespace Disk

/-- The inode of the regular file at a path. -/
def ino (d : Disk) (p : Path) : Option ℕ :=
  match d.entries.lookup p with
  | some (.file i) => some i
  | _ => none

/-- `open (path, O_RDONLY)`. -/
def openRead (d : Disk) (p : Path) : Option Fd := (d.ino p).map fun i => ⟨i, true, false⟩

/-- `open (path, O_WRONLY)`. -/
def openWrite (d : Disk) (p : Path) : Option Fd := (d.ino p).map fun i => ⟨i, false, true⟩

/-- `open (name, O_WRONLY)` of a relative name. -/
def openWriteRel (d : Disk) (name : String) : Option Fd := d.openWrite (d.cwd ++ [name])

/-- The link count of an inode: the number of names of it. -/
def nlink (d : Disk) (i : ℕ) : ℕ := (d.entries.toList.filter fun e => e.2 = .file i).length

/-- The disk with the bytes of one inode replaced. -/
def setBytes (d : Disk) (i : ℕ) (c : List UInt8) : Disk :=
  { d with bytes := Function.update d.bytes i c }

/-- `pread (fd, _, n, off)`: the result and the bytes stored. -/
def pread (d : Disk) (fd : Option Fd) (fate : Fate) (n : ℕ) (off : ℤ) : ℤ × List UInt8 :=
  match fd with
  | none => (-1, [])
  | some fd =>
      if fd.readable ∧ 0 ≤ off then
        let avail := Bytes.slice (d.bytes fd.ino) off.toNat n
        match fate.count avail.length with
        | none => (-1, [])
        | some k => (k, avail.take k)
      else (-1, [])

/-- `pwrite (fd, src, off)`: the result and the disk after it. -/
def pwrite (d : Disk) (fd : Option Fd) (fate : Fate) (src : List UInt8) (off : ℤ) : ℤ × Disk :=
  match fd with
  | none => (-1, d)
  | some fd =>
      if fd.writable ∧ 0 ≤ off then
        match fate.count src.length with
        | none => (-1, d)
        | some k => (k, d.setBytes fd.ino (Bytes.write (d.bytes fd.ino) off.toNat (src.take k)))
      else (-1, d)

/-- `ftruncate (fd, n)`, when the call is not made to fail. -/
def ftruncate (d : Disk) (fd : Option Fd) (ok : Bool) (n : ℕ) : Bool × Disk :=
  match fd with
  | none => (false, d)
  | some fd =>
      if fd.writable ∧ ok then (true, d.setBytes fd.ino (Bytes.resize (d.bytes fd.ino) n))
      else (false, d)

/-- `utimensat (0, path, ts, AT_SYMLINK_NOFOLLOW)`, when the path is there. -/
def utimensat (d : Disk) (p : Path) (ts : Timespec × Timespec) (now : Timespec) : Option Disk :=
  let set (i : ℕ) : Disk :=
    let old := d.times i
    let ctim := if ts.1.nsec = Timespec.utimeOmit ∧ ts.2.nsec = Timespec.utimeOmit then
      old.ctim else now
    { d with
        times := Function.update d.times i ⟨ts.1.given now old.atim,
          ts.2.given now old.mtim, ctim⟩ }
  match d.entries.lookup p with
  | none => none
  | some .dir => some d
  | some (.file i) => some (set i)
  | some (.symlink i) => some (set i)

/-- `utimes (name, times)` of a relative name. -/
def utimesRel (d : Disk) (name : String) (atim mtim now : Timespec) : Disk :=
  match d.ino (d.cwd ++ [name]) with
  | none => d
  | some i => { d with times := Function.update d.times i ⟨atim.micros, mtim.micros, now⟩ }

/-! ### The bytes after a call -/

@[simp] lemma bytes_setBytes_self (d : Disk) (i : ℕ) (c : List UInt8) :
    (d.setBytes i c).bytes i = c := by simp [setBytes]

lemma bytes_setBytes_ne (d : Disk) {i j : ℕ} (c : List UInt8) (h : j ≠ i) :
    (d.setBytes i c).bytes j = d.bytes j := by simp [setBytes, h]

/-- What no call on file data changes: the names, the times and the environment. -/
structure SameNames (d d' : Disk) : Prop where
  entries : d'.entries = d.entries
  times : d'.times = d.times
  sectors : d'.sectors = d.sectors
  cwd : d'.cwd = d.cwd

namespace SameNames

lemma refl (d : Disk) : SameNames d d := ⟨rfl, rfl, rfl, rfl⟩

lemma trans {d d' d'' : Disk} (h : SameNames d d') (h' : SameNames d' d'') : SameNames d d'' :=
  ⟨h'.entries.trans h.entries, h'.times.trans h.times, h'.sectors.trans h.sectors,
    h'.cwd.trans h.cwd⟩

lemma setBytes (d : Disk) (i : ℕ) (c : List UInt8) : SameNames d (d.setBytes i c) :=
  ⟨rfl, rfl, rfl, rfl⟩

lemma ino {d d' : Disk} (h : SameNames d d') (p : Path) : d'.ino p = d.ino p := by
  rw [Disk.ino, Disk.ino, h.entries]

lemma nlink {d d' : Disk} (h : SameNames d d') (i : ℕ) : d'.nlink i = d.nlink i := by
  rw [Disk.nlink, Disk.nlink, h.entries]

end SameNames

lemma sameNames_pwrite (d : Disk) (fd : Option Fd) (fate : Fate) (src : List UInt8) (off : ℤ) :
    SameNames d (d.pwrite fd fate src off).2 := by
  unfold pwrite
  split
  · exact .refl d
  · split_ifs
    · split
      · exact .refl d
      · exact .setBytes d _ _
    · exact .refl d

lemma sameNames_ftruncate (d : Disk) (fd : Option Fd) (ok : Bool) (n : ℕ) :
    SameNames d (d.ftruncate fd ok n).2 := by
  unfold ftruncate
  split
  · exact .refl d
  · split_ifs
    · exact .setBytes d _ _
    · exact .refl d

/-- A `pread` that succeeds in full on a readable descriptor. -/
lemma pread_full (d : Disk) {fd : Fd} (h : fd.readable = true) (n off : ℕ) :
    d.pread (some fd) .full n off
      = (((Bytes.slice (d.bytes fd.ino) off n).length : ℤ),
        Bytes.slice (d.bytes fd.ino) off n) := by
  simp [pread, h, Fate.count]

/-- A `pwrite` that succeeds in full on a writable descriptor. -/
lemma pwrite_full (d : Disk) {fd : Fd} (h : fd.writable = true) (src : List UInt8) (off : ℕ) :
    d.pwrite (some fd) .full src off
      = ((src.length : ℤ), d.setBytes fd.ino (Bytes.write (d.bytes fd.ino) off src)) := by
  simp [pwrite, h, Fate.count]

end Disk

end LazyFS
