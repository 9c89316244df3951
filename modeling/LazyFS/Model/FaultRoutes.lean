import Mathlib.Data.List.Sort
import LazyFS.Model.Hooks

/-!
The two ways to register a fault: the worker that reads commands from the FIFO (`main.cpp`, with
`add_torn_op_fault` and `add_torn_seq_fault` of `lazyfs.cpp`), and the configuration file
(`config.cpp`).

* `splitPieces`: the pieces of a command between the `::`; `isNumber`, `isNumberList`, `numbers`,
  `stoi`: what the worker makes of the text of a piece.
* `fhtWorkerCrash`, `fhtWorkerTornOp`, `fhtWorkerTornSeq`: the commands that register a fault.
* `Injection`, `loadTornSeq`, `loadTornOp`, `loadClear`, `loadInjections`: the tables
  `[[injection]]` of the file, after the parser of the file has read them.

A command is the text the worker has in its buffer, which holds 255 bytes.
-/

namespace LazyFS

open Program

/-! ### The text of a command -/

/-- `sregex_token_iterator` over the parts that `::` separates; an empty last part is left out. -/
def splitPieces : List Char → List (List Char)
  | [] => []
  | ':' :: ':' :: rest => [] :: splitPieces rest
  | c :: rest =>
      match splitPieces rest with
      | [] => [[c]]
      | p :: ps => (c :: p) :: ps

/-- The value of a piece that starts with a key. -/
def valueOf (key : String) (piece : List Char) : Option (List Char) :=
  if key.toList <+: piece then some (piece.drop key.length) else none

/-- The pattern `\d+`. -/
def isNumber (l : List Char) : Bool := !l.isEmpty && l.all Char.isDigit

/-- The pattern `(\d+,)*\d+`. -/
def isNumberList (l : List Char) : Bool := (l.splitOn ',').all isNumber

/-- `stoi` on digits, which throws when the number does not fit an `int`. -/
def stoi (l : List Char) : Option ℤ :=
  let n := Nat.ofDigitChars 10 l 0
  if n < 2 ^ 31 then some n else none

/-- The numbers that a `sregex_token_iterator` finds in a text. -/
def numbers (l : List Char) : Option (List ℤ) :=
  ((l.splitOnP fun c => !c.isDigit).filter fun run => !run.isEmpty).mapM stoi

/-- An attribute that stays `"none"` when it is not given, as a number. -/
def numberOr (dflt : ℤ) (l : List Char) : Option ℤ :=
  if l = "none".toList then some dflt else stoi l

/-! ### Faults added while the file system runs -/

namespace Lfs

/-- The end of `add_torn_op_fault` and `add_torn_seq_fault`: a path has at most one fault of the
kind. -/
def addFault (path : String) (fault : Fault) (sameKind : Fault → Bool) (onlyOne : String) :
    FaultM (List String) := do
  let s ← get
  match s.faults.lookup path with
  | none => do
      modify fun s => { s with faults := s.faults.insertNew path [fault] }
      pure []
  | some v =>
      if v.any sameKind then pure ((v.filter sameKind).map fun _ => onlyOne)
      else do
        modify fun s => { s with faults := s.faults.set path (v ++ [fault]) }
        pure []

/-- A text read as a value, with the exception that `stoi` throws. -/
def orThrow {α : Type} : Option α → FaultM α
  | none => throw .exception
  | some a => pure a

/-- `dynamic_cast<SplitWriteF*>` does not give a null pointer. -/
def isSplitWrite : Fault → Bool
  | .splitWrite _ => true
  | _ => false

/-- `dynamic_cast<ReorderF*>` does not give a null pointer. -/
def isReorder : Fault → Bool
  | .reorder _ => true
  | _ => false

/-- `add_torn_op_fault`. -/
def addTornOpFault (path parts partsBytes persist occurrence : List Char) :
    FaultM (List String) := do
  let persistv ← orThrow (numbers persist)
  let partsBytesV ← orThrow (if partsBytes = "none".toList then some [] else numbers partsBytes)
  let partsi ← orThrow (numberOr (-1) parts)
  let occurrencei ← orThrow (numberOr 1 occurrence)
  let (fault, errors) :=
    if partsi ≠ -1 then
      (SplitWriteF.ofParts occurrencei persistv partsi,
        SplitWriteF.validate occurrencei persistv (some partsi) none)
    else
      (SplitWriteF.ofPartsBytes occurrencei persistv partsBytesV,
        SplitWriteF.validate occurrencei persistv none (some partsBytesV))
  if errors = [] then
    addFault (String.ofList path) (.splitWrite fault) isSplitWrite
      "Only one torn-op fault per file is allowed."
  else pure errors

/-- `add_torn_seq_fault`. -/
def addTornSeqFault (path op persist occurrence : List Char) : FaultM (List String) := do
  let persistv ← orThrow (numbers persist)
  let occurrencei ← orThrow (numberOr 1 occurrence)
  let fault : ReorderF := { op := String.ofList op, persist := persistv, occurrence := occurrencei }
  let errors := fault.validate
  if errors = [] then
    addFault (String.ofList path) (.reorder fault) isReorder
      "Only one torn-seq fault per file is allowed."
  else pure errors

/-! ### The worker -/

/-- The attributes of a command, each `"none"` until it is given, and the errors so far. -/
structure Attributes where
  file : List Char := "none".toList
  op : List Char := "none".toList
  timing : List Char := "none".toList
  fromRgx : List Char := "none".toList
  toRgx : List Char := "none".toList
  parts : List Char := "none".toList
  partsBytes : List Char := "none".toList
  persist : List Char := "none".toList
  occurrence : List Char := "none".toList
  errors : List String := []
  deriving DecidableEq

/-- One error more. -/
def Attributes.err (a : Attributes) (e : String) : Attributes :=
  { a with errors := a.errors ++ [e] }

/-- One piece of a crash command. -/
def crashPiece (a : Attributes) (piece : List Char) : Attributes :=
  match valueOf "op=" piece, valueOf "timing=" piece, valueOf "from_rgx=" piece,
    valueOf "to_rgx=" piece with
  | some v, _, _, _ =>
      if v ≠ [] ∧ String.ofList v ∈ allowCrashFsOperations then { a with op := v }
      else a.err "operation not available"
  | none, some v, _, _ =>
      if v = "before".toList ∨ v = "after".toList then { a with timing := v }
      else a.err "timing should be 'before' or 'after'"
  | none, none, some v, _ => if v ≠ [] then { a with fromRgx := v } else a
  | none, none, none, some v => if v ≠ [] then { a with toRgx := v } else a
  | none, none, none, none => a

/-- The checks on the patterns of a crash command. -/
def checkCrash (a : Attributes) : Attributes :=
  if String.ofList a.op ∈ fsOpMultiPath then
    if a.fromRgx = "none".toList ∧ a.toRgx = "none".toList then
      a.err "should specify 'from_rgx' and/or 'to_rgx'"
    else a
  else if a.fromRgx = "none".toList ∨ a.toRgx ≠ "none".toList then
    a.err "should specify 'from_rgx' regex (and not 'to_rgx')"
  else a

/-- `lazyfs::crash`, with the errors that are reported. -/
def fhtWorkerCrash (command : List Char) : FaultM (List String) := do
  let a := checkCrash ((splitPieces command).foldl crashPiece {})
  if a.errors = [] then do
    addCrashFault (String.ofList a.timing) (String.ofList a.op) (String.ofList a.fromRgx)
      (String.ofList a.toRgx)
    pure []
  else pure a.errors

/-- One piece of a torn-op command. -/
def tornOpPiece (a : Attributes) (piece : List Char) : Attributes :=
  match valueOf "file=" piece, valueOf "parts=" piece, valueOf "parts_bytes=" piece,
    valueOf "persist=" piece, valueOf "occurrence=" piece with
  | some v, _, _, _, _ => if v ≠ [] then { a with file := v } else a.err "file not specified"
  | none, some v, _, _, _ => if isNumber v then { a with parts := v }
      else a.err "parts should be a number"
  | none, none, some v, _, _ =>
      if isNumberList v then { a with partsBytes := v }
      else a.err "parts_bytes should be a list of numbers separated by commas"
  | none, none, none, some v, _ =>
      if isNumberList v then { a with persist := v }
      else a.err "persist should be a list of numbers separated by commas"
  | none, none, none, none, some v =>
      if isNumber v then { a with occurrence := v } else a.err "occurrence should be a number"
  | none, none, none, none, none =>
      if piece ≠ "lazyfs".toList ∧ piece ≠ "torn-op".toList then a.err "unknown attribute" else a

/-- `lazyfs::torn-op`, with the errors that are reported. -/
def fhtWorkerTornOp (command : List Char) : FaultM (List String) := do
  let a := (splitPieces command).foldl tornOpPiece {}
  let a :=
    if a.parts = "none".toList ∧ a.partsBytes = "none".toList then
      a.err "should specify 'parts' or 'parts_bytes', not both"
    else a
  if a.errors = [] then addTornOpFault a.file a.parts a.partsBytes a.persist a.occurrence
  else pure a.errors

/-- One piece of a torn-seq command. -/
def tornSeqPiece (a : Attributes) (piece : List Char) : Attributes :=
  match valueOf "file=" piece, valueOf "op=" piece, valueOf "persist=" piece,
    valueOf "occurrence=" piece with
  | some v, _, _, _ => if v ≠ [] then { a with file := v } else a.err "bad file specification"
  | none, some v, _, _ => if v ≠ [] then { a with op := v } else a.err "operation not available"
  | none, none, some v, _ =>
      if isNumberList v then { a with persist := v }
      else a.err "persist should be a list of numbers separated by commas"
  | none, none, none, some v =>
      if isNumber v then { a with occurrence := v } else a.err "occurrence should be a number"
  | none, none, none, none =>
      if piece ≠ "lazyfs".toList ∧ piece ≠ "torn-seq".toList then a.err "unknown attribute" else a

/-- `lazyfs::torn-seq`, with the errors that are reported. -/
def fhtWorkerTornSeq (command : List Char) : FaultM (List String) := do
  let a := (splitPieces command).foldl tornSeqPiece {}
  if a.errors = [] then addTornSeqFault a.file a.op a.persist a.occurrence else pure a.errors

end Lfs

/-! ### The configuration file -/

/-- One table `[[injection]]`; a key that is not there is `none`. -/
structure Injection where
  type : String
  file : Option String := none
  op : Option String := none
  occurrence : Option ℤ := none
  persist : Option (List ℤ) := none
  parts : Option ℤ := none
  partsBytes : Option (List ℤ) := none
  timing : Option String := none
  source : Option String := none
  dest : Option String := none
  crash : Option Bool := none

namespace Injection

/-- The fault is registered for a path that has none of its kind. -/
def register (faults : Faults) (path : String) (fault : Fault) (sameKind : Fault → Bool) : Faults :=
  match faults.lookup path with
  | none => faults.set path [fault]
  | some v => if v.any sameKind then faults else faults.set path (v ++ [fault])

/-- A torn-seq fault for the same operation. -/
def isReorderFor (op : String) : Fault → Bool
  | .reorder f => f.op = op
  | _ => false

/-- `dynamic_cast<ClearF*>` does not give a null pointer. -/
def isClear : Fault → Bool
  | .clear _ => true
  | _ => false

/-- The torn-seq case of `load_config`.  The vector that receives the errors of `validate` is
declared in an inner block, so that the one looked at stays empty. -/
def loadTornSeq (faults : Faults) (injection : Injection) : Faults :=
  match injection.file, injection.op, injection.occurrence, injection.persist with
  | some file, some op, some occurrence, some persist =>
      let fault : ReorderF :=
        { op := op, persist := persist.insertionSort (· ≤ ·), occurrence := occurrence }
      let errors : List String := []
      if errors = [] then register faults file (.reorder fault) (isReorderFor op) else faults
  | _, _, _, _ => faults

/-- The torn-op case of `load_config`. -/
def loadTornOp (faults : Faults) (injection : Injection) : Faults :=
  match injection.file, injection.occurrence, injection.persist with
  | some file, some occurrence, some persist =>
      match injection.parts, injection.partsBytes with
      | some parts, none =>
          if SplitWriteF.validate occurrence persist (some parts) none = [] then
            register faults file (.splitWrite (.ofParts occurrence persist parts)) Lfs.isSplitWrite
          else faults
      | none, some partsBytes =>
          if SplitWriteF.validate occurrence persist none (some partsBytes) = [] then
            register faults file (.splitWrite (.ofPartsBytes occurrence persist partsBytes))
              Lfs.isSplitWrite
          else faults
      | _, _ => faults
  | _, _, _ => faults

/-- The clear-cache case of `load_config`. -/
def loadClear (faults : Faults) (injection : Injection) : Faults :=
  match injection.occurrence, injection.timing, injection.op, injection.crash with
  | some occurrence, some timing, some op, some crash =>
      let source := injection.source.getD "none"
      let fault : ClearF :=
        { timing := timing, op := op, source := source, dest := injection.dest.getD "none",
          occurrence := occurrence, crash := crash }
      if fault.validate = [] then register faults source (.clear fault) isClear else faults
  | _, _, _, _ => faults

/-- One turn of the loop of `load_config` over the injections. -/
def load (faults : Faults) (injection : Injection) : Faults :=
  if injection.type = "torn-seq" then loadTornSeq faults injection
  else if injection.type = "torn-op" then loadTornOp faults injection
  else if injection.type = "clear-cache" then loadClear faults injection
  else faults

/-- The loop of `load_config` over the injections. -/
def loadInjections (injections : List Injection) : Faults := injections.foldl load ∅

end Injection

end LazyFS
