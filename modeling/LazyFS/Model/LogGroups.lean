import Mathlib.Tactic

/-!
The grouping of the operations of a log (`group_ops` and `buffer_to_ops_grouped` of `parse.py`).

* `Op`: the parsed operations and the fault markers; `compareOps`.
* `Globals`: the global variables of the parser; `bufferToOpsGrouped` writes the buffer out.
* `Globals.step`: the body of the while loop; `Globals.flush`: what follows the loop.
* `Call.next`: one turn of the loop, or the end of a call of `group_ops` and the call on what
  remains; `groupOps`: turns until the first call returns.

Operations are read again after a pattern is broken, but none of those whose fields are deleted:
these are the first repetition of a pattern that came again.  So the fields are deleted from the
copy in the group.
-/

namespace LazyFS.LogParse

/-- What `parse_ops` appends: the dictionary of a system call with its path, that of a rename, and
the marker of a triggered fault.  The values that the pattern of a line leaves out are `none`. -/
inductive Op where
  /-- `size` and `off` are set for a read or a write, `mode` for an open or a create. -/
  | call (syscall path : String) (sizeOff : Option (Option String × Option String))
      (mode : Option (Option String))
  | rename (from_ to_ : String)
  | fault
  deriving DecidableEq

/-- The dictionary without `size`, `off` and `mode`. -/
def Op.bare : Op → Op
  | .call syscall path _ _ => .call syscall path none none
  | .rename from_ to_ => .rename from_ to_
  | .fault => .fault

/-- The exceptions of the parser, and the end of the turns allowed to it. -/
inductive GroupError where
  | keyError
  | indexError
  | outOfFuel
  deriving DecidableEq

/-- Two operations are the same if they have the same syscall and path.  Two markers have no
path. -/
def compareOps : Op → Op → Except GroupError Bool
  | .rename from1 to1, .rename from2 to2 => .ok (from1 = from2 && to1 = to2)
  | .rename _ _, _ => .ok false
  | .call syscall1 path1 _ _, .call syscall2 path2 _ _ => .ok (syscall1 = syscall2 && path1 = path2)
  | .call _ _ _ _, _ => .ok false
  | .fault, .fault => .error .keyError
  | .fault, _ => .ok false

/-- The first component of an element of `ops_grouped`. -/
inductive Entry where
  | op (op : Op)
  | group (group : List Op)
  deriving DecidableEq

/-- The global variables of the parser. -/
structure Globals where
  opsGrouped : List (Entry × ℕ)
  /-- The pattern: operations, each with the number of its occurrences. -/
  buffer : List (Op × ℕ)
  opsI : ℕ
  bufferI : ℕ
  i : ℕ
  deriving DecidableEq

/-- The element of a list at an index. -/
def item {α : Type} (l : List α) (n : ℕ) : Except GroupError α :=
  match l[n]? with
  | some a => .ok a
  | none => .error .indexError

namespace Globals

/-- The values the program starts with. -/
def init : Globals := ⟨[], [], 0, 0, 0⟩

/-- The operations of the buffer, as a group repeated `reps` times, after the groups so far. -/
def appendGroup (s : Globals) (reps : ℕ) : Globals :=
  { s with opsGrouped := s.opsGrouped ++ [(.group (s.buffer.map fun elem => elem.1.bare), reps)] }

/-- An operation on its own, after the groups so far. -/
def appendOp (s : Globals) (op : Op) : Globals :=
  { s with opsGrouped := s.opsGrouped ++ [(.op op, 1)] }

/-- The pattern of the buffer is broken: it is written out, and `ops_i` goes back. -/
def bufferToOpsGrouped (s : Globals) : Except GroupError Globals := do
  let first ← item s.buffer 0
  let last ← item s.buffer (s.buffer.length - 1)
  let countReps := first.2
  let rightCount := last.2
  let whole ←
    if countReps = rightCount then pure true
    else if countReps = 2 then do compareOps first.1 (← item s.buffer 1).1
    else pure false
  let s :=
    if whole then
      let s := s.appendGroup rightCount
      { s with opsI := s.opsI - 1 }
    else if countReps = 2 then
      let s := s.appendOp first.1
      { s with opsI := s.opsI - (s.buffer.map Prod.snd).sum }
    else if 2 < countReps then
      let s := s.appendGroup rightCount
      { s with opsI := s.opsI - s.buffer.length }
    else s
  pure { s with buffer := [], i := 0 }

/-- The body of the while loop. -/
def step (ops : List Op) (s : Globals) : Except GroupError Globals := do
  let op ← item ops s.opsI
  let s ←
    if s.buffer.length = 0 then pure { s with buffer := s.buffer ++ [(op, 1)], bufferI := s.opsI }
    else do
      let elem ← item s.buffer s.i
      let same ← compareOps elem.1 op
      if same then
        let buffer := s.buffer.set s.i (elem.1, elem.2 + 1)
        let i := s.i + 1
        pure { s with buffer := buffer, i := if i = buffer.length then 0 else i }
      else do
        let first ← item s.buffer 0
        if s.i = 0 ∧ first.2 = 1 then pure { s with buffer := s.buffer ++ [(op, 1)] }
        else s.bufferToOpsGrouped
  pure { s with opsI := s.opsI + 1 }

/-- After the loop: what is left in the buffer is written out, and the buffer is cleared. -/
def flush (s : Globals) : Globals :=
  let s :=
    match s.buffer with
    | [] => s
    | (op, reps) :: _ =>
        if 2 < reps ∨ (reps = 2 ∧ s.buffer.length = 1) then
          let s := s.appendGroup reps
          { s with bufferI := s.bufferI + (s.buffer.map Prod.snd).sum }
        else s.appendOp op
  { s with buffer := [] }

end Globals

/-- A call of `group_ops`: its argument, and the global variables while it runs. -/
structure Call where
  ops : List Op
  globals : Globals
  deriving DecidableEq

namespace Call

/-- The call that `main` makes. -/
def init (ops : List Op) : Call := ⟨ops, .init⟩

/-- One turn of the loop; or, where the loop ends, the call on the operations after the first one of
the buffer, if there are any. -/
def next (groupLimit : ℕ) (c : Call) : Except GroupError (Call ⊕ Globals) :=
  if c.globals.opsI < c.ops.length ∧ c.globals.buffer.length < groupLimit then do
    let s ← c.globals.step c.ops
    pure (.inl { c with globals := s })
  else
    let s := c.globals.flush
    if s.bufferI < c.ops.length - 1 then
      pure (.inl { ops := c.ops.drop (s.bufferI + 1), globals := { s with opsI := 0, i := 0 } })
    else pure (.inr s)

end Call

/-- Turn after turn until the first call returns, `fuel` of them at most. -/
def groupOps (groupLimit : ℕ) : ℕ → Call → Except GroupError Globals
  | 0, _ => .error .outOfFuel
  | fuel + 1, c => do
      match ← c.next groupLimit with
      | .inl c => groupOps groupLimit fuel c
      | .inr s => pure s

/-- The default of `group_limit`. -/
def groupLimit : ℕ := 4

/-- The operations that an element of `ops_grouped` stands for. -/
def Entry.ops : Entry → List Op
  | .op o => [o]
  | .group l => l

/-- The output expanded: each group repeated its number of times, each single operation once. -/
def expand (out : List (Entry × ℕ)) : List Op :=
  (out.map fun e => (List.replicate e.2 e.1.ops).flatten).flatten

end LazyFS.LogParse
