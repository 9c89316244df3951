import LazyFS.Model.Backing

/-!
The backing directory: the calls that create, link, remove and rename names, and its listing.

* `Disk.WellFormed`: the root is a directory, and whatever contains a name is one.
* `Disk.create`, `Disk.link`, `Disk.symlink`, `Disk.unlink`, `Disk.rename`: the calls of the
  same names, `none` when they fail.
* `Disk.children`: what `readdir` reports of a directory without `.` and `..`.
-/

namespace LazyFS

namespace Disk

/-- The directory that contains a name; the root contains itself. -/
def isDir (d : Disk) (p : Path) : Prop := d.entries.lookup p = some .dir

instance (d : Disk) (p : Path) : Decidable (d.isDir p) := inferInstanceAs (Decidable (_ = _))

/-- The root is a directory, and so is whatever contains a name. -/
structure WellFormed (d : Disk) : Prop where
  root : d.isDir []
  parent : ∀ p o, d.entries.lookup p = some o → d.isDir p.dropLast

/-- A name that may be created: absent, in a directory. -/
def Free (d : Disk) (p : Path) : Prop := d.entries.lookup p = none ∧ d.isDir p.dropLast

instance (d : Disk) (p : Path) : Decidable (d.Free p) := inferInstanceAs (Decidable (_ ∧ _))

/-- The disk with one name set. -/
def setEntry (d : Disk) (p : Path) (o : Obj) : Disk := { d with entries := d.entries.set p o }

/-- The disk with one name removed. -/
def eraseEntry (d : Disk) (p : Path) : Disk := { d with entries := d.entries.erase p }

/-- The flags of `open`: the access mode, `O_TRUNC` and `O_EXCL`. -/
structure OpenFlags where
  readable : Bool
  writable : Bool
  trunc : Bool := false
  excl : Bool := false

/-- `open` with `O_CREAT`: a file that is there is opened, a new one gets an inode that no name
has. -/
def create (d : Disk) (p : Path) (flags : OpenFlags) (newIno : ℕ) (now : Timespec) :
    Option (Disk × Fd) :=
  match d.entries.lookup p with
  | some (.file i) =>
      if flags.excl then none
      else
        some (if flags.trunc then d.setBytes i [] else d, ⟨i, flags.readable, flags.writable⟩)
  | some _ => none
  | none =>
      if d.Free p ∧ d.nlink newIno = 0 then
        some ({ ((d.setEntry p (.file newIno)).setBytes newIno []) with
            times := Function.update d.times newIno ⟨now, now, now⟩ },
          ⟨newIno, flags.readable, flags.writable⟩)
      else none

/-- `link`: a second name of a regular file or of a symbolic link. -/
def link (d : Disk) (source dest : Path) : Option Disk :=
  match d.entries.lookup source with
  | some .dir => none
  | some o => if d.Free dest then some (d.setEntry dest o) else none
  | none => none

/-- `symlink`. -/
def symlink (d : Disk) (p : Path) (newIno : ℕ) : Option Disk :=
  if d.Free p then some (d.setEntry p (.symlink newIno)) else none

/-- `unlink`. -/
def unlink (d : Disk) (p : Path) : Option Disk :=
  match d.entries.lookup p with
  | some .dir => none
  | some _ => some (d.eraseEntry p)
  | none => none

/-- The names in a directory, in the order of `readdir`. -/
def children (d : Disk) (p : Path) : List Path :=
  (d.entries.toList.map Prod.fst).filter fun q => q ≠ [] ∧ q.dropLast = p

/-- A name moved with whatever is below it. -/
def moveName (source dest p : Path) : Path :=
  if source <+: p then dest ++ p.drop source.length else p

/-- The names after a tree is moved. -/
def moveTree (d : Disk) (source dest : Path) : Disk :=
  { d with
      entries :=
        (Map.toList (AList.erase dest d.entries)).foldl
          (fun m e => Map.set m (moveName source dest e.1) e.2) ∅ }

/-- `rename`: two names of one file stay as they are, a directory may replace an empty
directory, and anything else what is not a directory. -/
def rename (d : Disk) (source dest : Path) : Option Disk :=
  match d.entries.lookup source, d.entries.lookup dest with
  | none, _ => none
  | some o, none =>
      if d.isDir dest.dropLast ∧ ¬ (o = .dir ∧ source <+: dest) then some (d.moveTree source dest)
      else none
  | some .dir, some .dir =>
      if source = dest then some d
      else if d.children dest = [] ∧ ¬ source <+: dest then some (d.moveTree source dest)
      else none
  | some .dir, some _ => none
  | some _, some .dir => none
  | some o, some o' => if o = o' then some d else some (d.moveTree source dest)

end Disk

end LazyFS
