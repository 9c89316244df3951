import LazyFS.Model.Config
import LazyFS.Support.Map

/-!
The faults (`faults.cpp`): their parameters, their counters and the checks on them.

* `ReorderF` (torn-seq), `SplitWriteF` (torn-op) and `ClearF` (clear-cache), each with its
  `validate`; `Fault` is a pointer to any of them, taken apart where the source uses `dynamic_cast`.
* `allowCrashFsOperations`, `fsOpMultiPath`: the operations that have hooks, and those with two
  paths.
* `Faults`: the faults of every file, in the order in which they were registered.
* `ClearF.hook`, `mapReorder`, `mapFirstSplit`: what a call does to the counters of the faults it
  finds.

A counter is an `int` that counts calls; it is taken without the overflow after `2^31` of them.
-/

namespace LazyFS

/-- `ClearF::allow_crash_fs_operations`, which is also the list of the file system. -/
def allowCrashFsOperations : List String :=
  ["unlink", "truncate", "fsync", "write", "create", "access", "open", "read", "rename", "link",
    "symlink"]

/-- `fs_op_multi_path`. -/
def fsOpMultiPath : List String := ["rename", "link", "symlink"]

/-- `ReorderF`, the torn-seq fault. -/
structure ReorderF where
  op : String
  persist : List ℤ
  occurrence : ℤ
  counter : ℤ := 0
  groupCounter : ℤ := 0
  deriving DecidableEq

/-- `ReorderF::validate`. -/
def ReorderF.validate (f : ReorderF) : List String :=
  (if f.op ≠ "write" then ["Operation must be \"write\"."] else []) ++
  (if f.occurrence ≤ 0 then ["Occurrence must be greater than 0."] else []) ++
  (if f.persist.any (· ≤ 0) then ["Persist must be greater than 0."] else [])

/-- `SplitWriteF`, the torn-op fault; `parts` is `-1` when `parts_bytes` is given. -/
structure SplitWriteF where
  occurrence : ℤ
  persist : List ℤ
  parts : ℤ
  partsBytes : List ℤ
  counter : ℤ := 0
  deriving DecidableEq

namespace SplitWriteF

/-- The constructor with equal parts. -/
def ofParts (occurrence : ℤ) (persist : List ℤ) (parts : ℤ) : SplitWriteF :=
  ⟨occurrence, persist, parts, [], 0⟩

/-- The constructor with the bytes of every part. -/
def ofPartsBytes (occurrence : ℤ) (persist partsBytes : List ℤ) : SplitWriteF :=
  ⟨occurrence, persist, -1, partsBytes, 0⟩

/-- The number of parts that `validate` goes by. -/
def nrParts (parts : Option ℤ) (partsBytes : Option (List ℤ)) : ℤ :=
  match parts, partsBytes with
  | some parts, _ => parts
  | none, some partsBytes => partsBytes.length
  | none, none => 1

/-- `SplitWriteF::validate`. -/
def validate (occurrence : ℤ) (persist : List ℤ) (parts : Option ℤ) (partsBytes : Option (List ℤ)) :
    List String :=
  (if occurrence ≤ 0 then ["Occurrence must be greater than 0."] else []) ++
  (if parts.any (· ≤ 0) then ["Parts must be greater than 0."] else []) ++
  (if partsBytes.any (·.any (· ≤ 0)) then ["Parts_bytes values must be greater than 0."] else []) ++
  (if parts = none ∧ partsBytes = none then ["Parts or parts_bytes must be defined."] else []) ++
  (if persist.any fun p => p ≤ 0 ∨ nrParts parts partsBytes < p then
    ["Persist must be greater than 0 and less than parts."] else [])

end SplitWriteF

/-- `ClearF`, the clear-cache fault. -/
structure ClearF where
  timing : String
  op : String
  source : String
  dest : String
  occurrence : ℤ
  crash : Bool
  counter : ℤ := 0
  deriving DecidableEq

/-- `ClearF::validate`. -/
def ClearF.validate (f : ClearF) : List String :=
  (if f.occurrence ≤ 0 then ["Occurrence must be greater than 0."] else []) ++
  (if f.op ∉ allowCrashFsOperations then ["Operation not available."] else []) ++
  (if f.timing ≠ "before" ∧ f.timing ≠ "after" then
    ["Timing must be \"before\" or \"after\"."] else []) ++
  (if f.op ∈ fsOpMultiPath then
    if f.source = "none" ∨ f.dest = "none" then
      ["\"from\" and \"to\" must be set defined operations with two paths."] else []
  else if f.source = "none" ∨ f.dest ≠ "none" then
    ["Should specify \"from\" (and not \"to\")"] else [])

/-- `Fault*`. -/
inductive Fault where
  | reorder (f : ReorderF)
  | splitWrite (f : SplitWriteF)
  | clear (f : ClearF)
  deriving DecidableEq

/-- `unordered_map<string, vector<Fault*>>`: the faults by the path they are registered for. -/
abbrev Faults := Map String (List Fault)

/-- The faults of a path, none when the path is not a key. -/
def faultsOf (m : Faults) (path : String) : List Fault := (m.lookup path).getD []

/-- The faults of a path changed in place; a path that is not a key stays without faults. -/
def mapFaults (m : Faults) (path : String) (f : List Fault → List Fault) : Faults := m.update path f

lemma faultsOf_mapFaults (m : Faults) (path p : String) {f : List Fault → List Fault}
    (hf : f [] = []) :
    faultsOf (mapFaults m path f) p = if p = path then f (faultsOf m path) else faultsOf m p := by
  rw [faultsOf, mapFaults, Map.lookup_update]
  split_ifs with hp
  · rw [faultsOf]
    cases m.lookup path with
    | none => exact hf.symm
    | some v => rfl
  · rfl

/-! ### Counting -/

namespace ClearF

/-- The fault is about a call of `opname` to `toPath`. -/
def Concerns (f : ClearF) (opname toPath : String) : Prop :=
  f.op = opname ∧ (opname ∈ fsOpMultiPath → toPath = f.dest)

instance (f : ClearF) (opname toPath : String) : Decidable (f.Concerns opname toPath) :=
  inferInstanceAs (Decidable (_ ∧ _))

/-- What `trigger_configured_clear_fault` does to one fault, and whether its condition is met: the
counter is advanced on `"before"` only, and the value before the advance is compared. -/
def hook (f : ClearF) (opname optiming toPath : String) : ClearF × Bool :=
  if f.Concerns opname toPath then
    let currentCount := f.counter
    (if optiming = "before" then { f with counter := f.counter + 1 } else f,
      f.timing = optiming ∧ currentCount = f.occurrence)
  else (f, false)

end ClearF

/-- The last torn-seq fault for an operation, the one that `get_and_update_reorder_fault`
returns. -/
def lastReorder (op : String) : List Fault → Option ReorderF
  | [] => none
  | x :: xs =>
      match lastReorder op xs, x with
      | some f, _ => some f
      | none, .reorder f => if f.op = op then some f else none
      | none, _ => none

/-- The last torn-seq fault for an operation changed in place. -/
def mapLastReorder (op : String) (g : ReorderF → ReorderF) : List Fault → List Fault
  | [] => []
  | x :: xs =>
      match lastReorder op xs, x with
      | some _, _ => x :: mapLastReorder op g xs
      | none, .reorder f => if f.op = op then .reorder (g f) :: xs else x :: xs
      | none, _ => x :: xs

/-- Every torn-seq fault for an operation changed in place. -/
def mapReorder (op : String) (g : ReorderF → ReorderF) (l : List Fault) : List Fault :=
  l.map fun
    | .reorder f => if f.op = op then .reorder (g f) else .reorder f
    | x => x

/-- The first torn-op fault. -/
def firstSplit : List Fault → Option SplitWriteF
  | [] => none
  | .splitWrite f :: _ => some f
  | _ :: xs => firstSplit xs

/-- The first torn-op fault changed in place. -/
def mapFirstSplit (g : SplitWriteF → SplitWriteF) : List Fault → List Fault
  | [] => []
  | .splitWrite f :: xs => .splitWrite (g f) :: xs
  | x :: xs => x :: mapFirstSplit g xs

end LazyFS
