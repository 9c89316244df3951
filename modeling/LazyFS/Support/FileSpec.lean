import Mathlib.Data.Set.Card
import LazyFS.Support.Bytes

/-!
A file system over any paths, inodes and bytes, whose names are durable at once and whose contents
are durable when they are synced.

* `State`: the names, each of a file or of something else, the contents of the files and what a
  crash leaves of them.
* `Op`, `Res`, `step`: the operations and their answers; a name goes with `unlink`, and with
  `rename` when it is replaced.
* `names_setName`, `contents_setContents`, `atFile_of_ino`: what the parts of a step do.
-/

namespace FileSpec

variable {κ ι α : Type*}

/-- What a name names. -/
inductive Entry (ι : Type*) where
  | file (i : ι)
  | other

/-- The names, the contents of the files and what a crash leaves of them. -/
structure State (κ ι α : Type*) where
  names : κ → Option (Entry ι)
  contents : ι → List α
  durable : ι → List α

/-- An operation. -/
inductive Op (κ ι α : Type*) where
  | stat (p : κ)
  | read (p : κ) (n off : ℕ)
  | write (p : κ) (off : ℕ) (src : List α)
  | truncate (p : κ) (n : ℕ)
  | sync (p : κ)
  | create (p : κ) (i : ι)
  | link (p q : κ)
  | symlink (p : κ)
  | unlink (p : κ)
  | rename (p q : κ)
  | crash

/-- An answer. -/
inductive Res (α : Type*) where
  | stat (size links : ℕ)
  | bytes (l : List α)
  | done
  | failed

namespace State

/-- The file at a path. -/
def ino (s : State κ ι α) (p : κ) : Option ι :=
  match s.names p with
  | some (.file i) => some i
  | _ => none

/-- The number of names of a file. -/
noncomputable def links (s : State κ ι α) (i : ι) : ℕ := {p | s.ino p = some i}.ncard

variable [DecidableEq κ] [DecidableEq ι]

/-- A name set or removed. -/
def setName (s : State κ ι α) (p : κ) (e : Option (Entry ι)) : State κ ι α :=
  { s with names := Function.update s.names p e }

/-- The contents of a file replaced. -/
def setContents (s : State κ ι α) (i : ι) (c : List α) : State κ ι α :=
  { s with contents := Function.update s.contents i c }

omit [DecidableEq ι] in
/-- The names after a name changes. -/
lemma names_setName (s : State κ ι α) (p q : κ) (e : Option (Entry ι)) :
    (s.setName p e).names q = if q = p then e else s.names q := Function.update_apply _ _ _ _

omit [DecidableEq κ] in
/-- The contents after those of a file are replaced. -/
lemma contents_setContents (s : State κ ι α) (i j : ι) (c : List α) :
    (s.setContents i c).contents j = if j = i then c else s.contents j :=
  Function.update_apply _ _ _ _

end State

variable [DecidableEq κ] [DecidableEq ι] [Zero α]

/-- What an operation makes of the file at a path. -/
def State.atFile (s : State κ ι α) (p : κ) (f : ι → State κ ι α × Res α) : State κ ι α × Res α :=
  match s.ino p with
  | some i => f i
  | none => (s, .failed)

omit [DecidableEq κ] [DecidableEq ι] [Zero α] in
lemma atFile_of_ino {s : State κ ι α} {p : κ} {i : ι} (h : s.ino p = some i)
    (f : ι → State κ ι α × Res α) : s.atFile p f = f i := by
  rw [State.atFile, h]

/-- One operation, with its answer. -/
noncomputable def step (s : State κ ι α) : Op κ ι α → State κ ι α × Res α
  | .stat p => s.atFile p fun i => (s, .stat (s.contents i).length (s.links i))
  | .read p n off => s.atFile p fun i => (s, .bytes (Bytes.slice (s.contents i) off n))
  | .write p off src => s.atFile p fun i =>
    (s.setContents i (Bytes.write (s.contents i) off src), .done)
  | .truncate p n => s.atFile p fun i => (s.setContents i (Bytes.resize (s.contents i) n), .done)
  | .sync p => s.atFile p fun i =>
    ({ s with durable := Function.update s.durable i (s.contents i) }, .done)
  | .create p i =>
      ({ (s.setName p (some (.file i))).setContents i [] with
          durable := Function.update s.durable i [] }, .done)
  | .link p q => (s.setName q (s.names p), .done)
  | .symlink p => (s.setName p (some .other), .done)
  | .unlink p => (s.setName p none, .done)
  | .rename p q => ((s.setName p none).setName q (s.names p), .done)
  | .crash => ({ s with contents := s.durable }, .done)

end FileSpec
