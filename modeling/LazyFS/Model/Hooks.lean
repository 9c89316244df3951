import LazyFS.Model.Faults
import LazyFS.Model.NameOps
import LazyFS.Support.Programs

/-!
The fault hooks of the file system (`lazyfs.cpp`).

* `Lfs`: the file system with its faults, the crash faults armed so far, the write that is held back
  and the shared holds on `cache_command_lock`.
* `FaultM`: code that may kill the process or wait for ever on that lock.
* `triggerCrashFault`, `triggerConfiguredClearFault`: the hooks around every operation.
* `restartCounter`, `checkAndDeletePendingwrite`, `persistWrite`, `splitWrite`: the torn writes.

Reports and the list of files they leave out (`injecting_fault`) are left out, and so are the locks
that guard one field each.
-/

namespace LazyFS

open Program

/-- `std::regex_match` of a whole string, the second argument, against a pattern that is well
formed. -/
abbrev Rgx := String → String → Bool

/-- `std::regex_match (x, std::regex (".*" + r + ".*"))`. -/
def regexMatch (rgx : Rgx) (r x : String) : Bool := rgx (".*" ++ r ++ ".*") x

/-- `Write`: a write that is held back. -/
structure Write where
  path : Path
  buf : List UInt8
  offset : ℕ
  deriving DecidableEq

/-- The table of crash faults: for every operation the pattern of the first path and the text of the
second. -/
abbrev CrashFaults := Map String (List (String × String))

/-- An operation took effect, or the condition of a clear fault of a path was met. -/
inductive Event where
  | took (opname fromPath toPath : String)
  | fired (path : String) (fault : ClearF)
  deriving DecidableEq

/-- `LazyFS`, the class. -/
structure Lfs where
  fs : FS
  faults : Faults
  crashFaultsBefore : CrashFaults
  crashFaultsAfter : CrashFaults
  pendingWrite : Option Write
  /-- How often the thread holds `cache_command_lock` shared. -/
  sharedHolds : ℕ := 0
  /-- The writes that `persist_write` sent to the backing files, the last one first; no code reads
  them. -/
  persisted : List Write := []
  /-- What the calls did, the last event first; no code reads it. -/
  trace : List Event := []
  /-- The parts that `split_write` sent to the backing files, each with its offset, the last one
  first; no code reads them. -/
  parts : List (List UInt8 × ℤ) := []

/-- Why a call does not return: the process is killed, or the thread waits for a lock it holds
itself, or an exception is thrown. -/
inductive Halt where
  | killed
  | deadlock
  | exception
  deriving DecidableEq

abbrev FaultM := EStateM Halt Lfs

namespace Lfs

/-- The table without crash faults. -/
def noCrashFaults : CrashFaults := allowCrashFsOperations.foldl (fun m op => m.insertNew op []) ∅

/-- The constructor. -/
def new (fs : FS) (faults : Faults) : Lfs :=
  ⟨fs, faults, noCrashFaults, noCrashFaults, none, 0, [], [], []⟩

variable (cfg : Config) (rgx : Rgx)

/-- A part of an operation that only changes the cache and the backing files. -/
def liftFs {α : Type} (f : FS → Option (FS × α)) : FaultM α :=
  ofOption .exception fs (fun fs s => { s with fs := fs }) f

/-! ### Hooks -/

/-- A crash fault is met.  The pattern of the first path of an operation with two paths is only
looked at when it matches `"none"`. -/
def crashFaultMet (opname fromOpPath toOpPath : String) (it : String × String) : Bool :=
  if opname ∈ fsOpMultiPath then
    let met := if regexMatch rgx it.1 "none" then regexMatch rgx it.1 fromOpPath else true
    if it.2 ≠ "none" then met && regexMatch rgx it.2 toOpPath else met
  else regexMatch rgx it.1 fromOpPath

/-- `trigger_crash_fault`. -/
def triggerCrashFault (opname optiming fromOpPath toOpPath : String) : FaultM PUnit := do
  let s ← get
  match (if optiming = "before" then s.crashFaultsBefore else s.crashFaultsAfter).lookup opname with
  | none => throw .exception
  | some opfaults =>
      if opfaults.any (crashFaultMet rgx opname fromOpPath toOpPath) then throw .killed else pure ⟨⟩

/-- `add_crash_fault`. -/
def addCrashFault (crashTiming crashOperation crashRegexFrom crashRegexTo : String) :
    FaultM PUnit := do
  let s ← get
  let add (m : CrashFaults) := m.update crashOperation (· ++ [(crashRegexFrom, crashRegexTo)])
  if crashTiming = "before" then
    if (s.crashFaultsBefore.lookup crashOperation).isNone then throw .exception
    else modify fun s => { s with crashFaultsBefore := add s.crashFaultsBefore }
  else if (s.crashFaultsAfter.lookup crashOperation).isNone then throw .exception
  else modify fun s => { s with crashFaultsAfter := add s.crashFaultsAfter }

/-- `command_fault_clear_cache`: the lock is asked for exclusively. -/
def commandFaultClearCache : FaultM PUnit := do
  let s ← get
  if 0 < s.sharedHolds then throw .deadlock
  else modify fun s => { s with fs := s.fs.setCache (s.fs.cache.clearAllCache cfg) }

/-- A fault whose condition is met. -/
def fire (path : String) (f : ClearF) : FaultM PUnit := do
  modify fun s => { s with trace := .fired path f :: s.trace }
  if f.crash then throw .killed else commandFaultClearCache cfg

/-- The loop of `trigger_configured_clear_fault` over the faults still to be looked at. -/
def clearFaultLoop (opname optiming fromPath toPath : String) :
    List Fault → List Fault → FaultM PUnit
  | _, [] => pure ⟨⟩
  | seen, .clear f :: rest => do
      let (f', met) := f.hook opname optiming toPath
      modify fun s =>
        { s with faults := mapFaults s.faults fromPath fun _ => seen ++ .clear f' :: rest }
      if met then fire cfg fromPath f
      clearFaultLoop opname optiming fromPath toPath (seen ++ [.clear f']) rest
  | seen, x :: rest => clearFaultLoop opname optiming fromPath toPath (seen ++ [x]) rest

/-- `trigger_configured_clear_fault`. -/
def triggerConfiguredClearFault (opname optiming fromPath toPath : String) : FaultM PUnit := do
  let s ← get
  clearFaultLoop cfg opname optiming fromPath toPath [] (faultsOf s.faults fromPath)

/-! ### Torn writes -/

/-- How the backing calls of one torn write end, and the inode a new file would get. -/
structure TornIo where
  pendingPwrite : Fate := .full
  ownPwrite : Fate := .full
  partPwrite : ℕ → Fate := fun _ => .full
  newIno : ℕ := 0
  now : Timespec := default

/-- `restart_counter`. -/
def restartCounter (path op : String) : FaultM PUnit :=
  modify fun s =>
    { s with faults := mapFaults s.faults path (mapReorder op fun f => { f with counter := 0 }) }

/-- `check_and_delete_pendingwrite`. -/
def checkAndDeletePendingwrite (path : String) : FaultM PUnit :=
  modify fun s =>
    match s.pendingWrite with
    | none => s
    | some w => if w.path.str = path then { s with pendingWrite := none } else s

/-- `get_and_update_reorder_fault`. -/
def getAndUpdateReorderFault (path op : String) : FaultM (Option ReorderF) := do
  modify fun s =>
    { s with
        faults := mapFaults s.faults path (mapReorder op fun f =>
          { f with counter := f.counter + 1 }) }
  let s ← get
  pure (lastReorder op (faultsOf s.faults path))

/-- `open (path, O_CREAT | O_WRONLY, 0666)`. -/
def openCreat (path : Path) (io : TornIo) : FaultM (Option Fd) := do
  let s ← get
  match s.fs.disk.create path { readable := false, writable := true } io.newIno io.now with
  | none => pure none
  | some (d, fd) => do
      modify fun s => { s with fs := { s.fs with disk := d } }
      pure (some fd)

/-- `pwrite` on a descriptor of a backing file, `true` when it writes everything. -/
def backingPwrite (fd : Option Fd) (fate : Fate) (buf : List UInt8) (offset : ℤ) : FaultM Bool := do
  let s ← get
  let pw := s.fs.disk.pwrite fd fate buf offset
  modify fun s => { s with fs := { s.fs with disk := pw.2 } }
  pure (pw.1 = buf.length)

/-- A write that `persist_write` sends to its file. -/
def sendWrite (w : Write) (fate : Fate) (io : TornIo) : FaultM Bool := do
  let fd ← openCreat w.path io
  modify fun s => { s with persisted := w :: s.persisted }
  backingPwrite fd fate w.buf w.offset

/-- The second write of a group counts the group. -/
def countGroup (path : String) (fault : ReorderF) : FaultM ReorderF :=
  if fault.counter = 2 then do
    modify fun s =>
      { s with
          faults := mapFaults s.faults path
            (mapLastReorder "write" fun f => { f with groupCounter := f.groupCounter + 1 }) }
    pure { fault with groupCounter := fault.groupCounter + 1 }
  else pure fault

/-- The write that is held back is sent or forgotten.  The result says whether `persist_write`
returns at once, with the write still held back. -/
def resolvePending (path : String) (fault : ReorderF) (io : TornIo) : FaultM Bool := do
  let s ← get
  match s.pendingWrite with
  | none => pure false
  | some w => do
      let sent ←
        if fault.groupCounter = fault.occurrence then
          sendWrite w io.pendingPwrite io else pure false
      if sent ∧ fault.persist.length = 1 then do
        addCrashFault "after" "write" path "none"
        pure true
      else do
        modify fun s => { s with pendingWrite := none }
        pure false

/-- The write itself is held back, sent or left alone. -/
def persistOwn (fault : ReorderF) (w : Write) (io : TornIo) : FaultM Bool :=
  if fault.counter ∈ fault.persist then
    if fault.counter = 1 then do
      modify fun s => { s with pendingWrite := some w }
      pure false
    else if fault.groupCounter = fault.occurrence then do
      let sent ← sendWrite w io.ownPwrite io
      if sent ∧ fault.persist.getLast? = some fault.counter then do
        addCrashFault "after" "write" w.path.str "none"
        pure true
      else pure false
    else pure false
  else pure false

/-- `persist_write`. -/
def persistWrite (w : Write) (io : TornIo) : FaultM Bool := do
  match ← getAndUpdateReorderFault w.path.str "write" with
  | none => pure false
  | some fault => do
      let fault ← countGroup w.path.str fault
      if ← resolvePending w.path.str fault io then pure false else persistOwn fault w io

/-- A part of a write as `split_write` keeps it, a tuple of `int`s: the first byte in the buffer,
the length and the offset in the file. -/
abbrev Part := ℤ × ℤ × ℤ

/-- The parts of a write that a torn-op fault keeps; `none` when the parts do not add up to the
write, as an `int` that is compared with a `size_t`. -/
def splitParts (f : SplitWriteF) (size offset : ℕ) : Option (List Part) :=
  if f.parts = -1 then
    f.persist.mapM fun p =>
      let sum := toInt f.partsBytes.sum
      let bufI := toInt (f.partsBytes.take (p - 1).toNat).sum
      if sum % 2 ^ 64 ≠ size then none
      else some (bufI, f.partsBytes.getD (p - 1).toNat 0, toInt (offset + bufI))
  else
    let sizeToPersist := size / f.parts.toNat
    let extraSizeToPersist := size % f.parts.toNat
    some (f.persist.zipIdx.map fun (p, pI) =>
      (toInt ((p - 1) * sizeToPersist),
        toInt (if pI = f.persist.length - 1 then sizeToPersist + extraSizeToPersist
          else sizeToPersist : ℕ),
        toInt (offset + (p - 1) * sizeToPersist)))

/-- The loop of `split_write` over the parts, `false` at the first one that is not written. -/
def writeParts (fd : Option Fd) (buf : List UInt8) (io : TornIo) : List Part → ℕ → FaultM Bool
  | [], _ => pure true
  | (bufI, len, off) :: rest, k => do
      let part := Bytes.slice buf bufI.toNat len.toNat
      modify fun s => { s with parts := (part, off) :: s.parts }
      if ← backingPwrite fd (io.partPwrite k) part off then
        writeParts fd buf io rest (k + 1)
      else pure false

/-- `split_write`. -/
def splitWrite (w : Write) (io : TornIo) : FaultM Bool := do
  modify fun s =>
    { s with
        faults := mapFaults s.faults w.path.str
          (mapFirstSplit fun f => { f with counter := f.counter + 1 }) }
  let s ← get
  match firstSplit (faultsOf s.faults w.path.str) with
  | none => pure false
  | some fault =>
      if fault.counter = fault.occurrence then do
        let fd ← openCreat w.path io
        match splitParts fault w.buf.length w.offset with
        | none => pure false
        | some parts => do
            if ← writeParts fd w.buf io parts 0 then do
              addCrashFault "after" "write" w.path.str "none"
              pure true
            else pure false
      else pure false

end Lfs

end LazyFS
