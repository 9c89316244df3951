import LazyFS.Model.Calls
import LazyFS.File.Durable

/-!
The consistency checker (`tests/lfscheck/src/lfscheck.cpp`), a client of a mounted file system.

* `CheckWorker`: the variables of `do_consistency_work`; `CheckPhase`: where its loop is.
* `Lfscheck`: the file system with the workers and the variables that they share with the monitor.
* `CheckAction`, `Lfscheck.step`: one call of a worker, or one round of `do_monitoring`.
* `Lfscheck.start`: the files are created and opened, and nothing is done yet.

A worker holds `loop_mtx` shared in one turn of its loop and the monitor holds it alone, so that
workers are interleaved call by call and the cache is cleared between turns.  The random numbers of
a turn are part of the action, and so is the time that has passed.  A worker that has left its loop
does nothing more: it closes and removes its file, on which nothing is asserted.
-/

namespace LazyFS

/-- Where the loop of a worker is. -/
inductive CheckPhase where
  /-- At the head of the loop, without the lock. -/
  | head
  /-- Waiting for `loop_condition`. -/
  | waiting
  /-- The operation is counted. -/
  | entered
  /-- The file is opened again, to be compared. -/
  | reopened
  /-- The file is compared, or need not be. -/
  | compared
  /-- `pwrite` has returned. -/
  | written (bt up : ℕ) (ch : UInt8)
  /-- The write was read back. -/
  | readBack
  /-- Outside the loop. -/
  | finished
  deriving DecidableEq

/-- The worker holds `loop_mtx`. -/
def CheckPhase.holdsLock : CheckPhase → Bool
  | head | waiting | finished => false
  | _ => true

/-- A write is to be read back. -/
def CheckPhase.isWritten : CheckPhase → Bool
  | written .. => true
  | _ => false

/-- The variables of `do_consistency_work`. -/
structure CheckWorker where
  phase : CheckPhase
  fdOperations : Option Fd
  fileBuffer : Mem
  unsyncedBuf : Mem
  fileSize : ℤ
  lastOffCheckBottom : ℤ
  lastOffCheckUp : ℤ

/-- The arguments of `lfscheck`. -/
structure CheckArgs where
  gNrThreads : ℕ
  maxBurstOperations : ℕ
  upperBoundWrite : ℕ

/-- `MAX_WRITE_OFF`. -/
def maxWriteOff : ℕ := 32768

/-- `worker_path`. -/
def workerPath (tid : ℕ) : Path := ["file_" ++ toString tid]

/-- `O_RDWR`. -/
def checkFlags : Disk.OpenFlags := { readable := true, writable := true }

/-- The mounted file system, the workers and the variables they share with the monitor; `aborted`
after an assertion that failed. -/
structure Lfscheck where
  fs : FS
  workers : ℕ → CheckWorker
  threadOpCount : ℕ → ℕ
  threadCheckFile : ℕ → Bool
  canDoWork : Bool
  stopWorkers : Bool
  lastIteration : Bool
  monitorFinished : Bool
  aborted : Bool

/-- What happens next. -/
inductive CheckAction where
  /-- A worker finds `stop_workers` set, or not, at the head of its loop. -/
  | head (tid : ℕ)
  /-- A worker goes on after `loop_condition.wait`. -/
  | enter (tid : ℕ)
  /-- The file is closed and opened again to be compared, when it is to be. -/
  | reopen (tid : ℕ) (io fillIo : WriteIo)
  /-- `pread` of the whole file; `buf` is what `read_buf` holds before. -/
  | compare (tid : ℕ) (buf : Mem) (io : ReadIo)
  /-- The loop is left in the last iteration. -/
  | leave (tid : ℕ)
  | pwrite (tid : ℕ) (bt up : ℕ) (ch : UInt8) (io fillIo : WriteIo)
  /-- `pread` of what was written. -/
  | pread (tid : ℕ) (buf : Mem) (io : ReadIo)
  /-- The end of the turn, with an `fsync` when `fs` is set. -/
  | fsync (tid : ℕ) (fs : Bool) (io : Engine.SyncIo)
  /-- A round of the monitor that clears the cache; `timeUp` says that it is the last one. -/
  | clear (timeUp : Bool)
  /-- The monitor cannot open the FIFO. -/
  | noFifo

namespace CheckWorker

/-- The memory of what was written and not synced is forgotten. -/
def forget (w : CheckWorker) (upper : ℕ) : CheckWorker :=
  { w with
      lastOffCheckBottom := -1
      lastOffCheckUp := -1
      unsyncedBuf := memset w.unsyncedBuf 0 0 upper }

/-- A write that was read back is remembered. -/
def remember (w : CheckWorker) (bt up : ℕ) (ch : UInt8) : CheckWorker :=
  let bottom := if w.lastOffCheckBottom = -1 then (bt : ℤ) else w.lastOffCheckBottom
  let top := if w.lastOffCheckUp = -1 then (up : ℤ) else w.lastOffCheckUp
  { w with
      unsyncedBuf := memset w.unsyncedBuf bt ch (up - bt + 1)
      lastOffCheckBottom := if bottom ≠ -1 ∧ top ≠ -1 then min bottom bt else bottom
      lastOffCheckUp := if bottom ≠ -1 ∧ top ≠ -1 then max top up else top }

/-- The loop over `file_buffer` after an `fsync`. -/
def mergeSynced (w : CheckWorker) : Mem := fun k =>
  if w.lastOffCheckBottom ≤ k ∧ k ≤ w.lastOffCheckUp ∧ w.unsyncedBuf k ≠ 0 then w.unsyncedBuf k
  else w.fileBuffer k

/-- What was written since the last check is synced. -/
def save (w : CheckWorker) (upper : ℕ) : CheckWorker :=
  { w with
      fileBuffer := w.mergeSynced
      fileSize := max w.fileSize (w.lastOffCheckUp + 1) }.forget upper

end CheckWorker

namespace Lfscheck

variable (cfg : Config) (args : CheckArgs)

/-- One worker changes. -/
def setWorker (s : Lfscheck) (tid : ℕ) (w : CheckWorker) : Lfscheck :=
  { s with workers := Function.update s.workers tid w }

/-- A worker goes on. -/
def goTo (s : Lfscheck) (tid : ℕ) (phase : CheckPhase) : Lfscheck :=
  s.setWorker tid { s.workers tid with phase := phase }

/-- `assert`. -/
def assert (s : Lfscheck) (holds : Bool) : Lfscheck := { s with aborted := s.aborted || !holds }

/-- `close` and `open (worker_path, O_RDWR)`. -/
def reopenFile (s : Lfscheck) (tid : ℕ) (io fillIo : WriteIo) : Option Lfscheck :=
  (s.fs.lfsOpen cfg (workerPath tid) checkFlags io fillIo).map fun r =>
    { s with fs := r.1 }.setWorker tid
      { s.workers tid with phase := .reopened, fdOperations := r.2.2 }

/-- `pread` on the descriptor of a worker. -/
def preadFile (s : Lfscheck) (tid : ℕ) (buf : Mem) (size offset : ℕ) (io : ReadIo) :
    Option (FS × ℤ × Mem) :=
  match (s.workers tid).fdOperations with
  | none => some (s.fs, -1, buf)
  | some fd => s.fs.lfsRead cfg (workerPath tid) buf size offset (some ⟨fd, false⟩) io

/-- `pwrite` on the descriptor of a worker. -/
def pwriteFile (s : Lfscheck) (tid : ℕ) (buf : Mem) (size offset : ℕ) (io fillIo : WriteIo) :
    Option (FS × ℤ) :=
  match (s.workers tid).fdOperations with
  | none => some (s.fs, -1)
  | some fd => s.fs.lfsWrite cfg (workerPath tid) buf size offset (some ⟨fd, false⟩) io fillIo

/-- `fsync` on the descriptor of a worker. -/
def fsyncFile (s : Lfscheck) (tid : ℕ) (io : Engine.SyncIo) : Option (FS × ℤ) :=
  match (s.workers tid).fdOperations with
  | none => some (s.fs, -1)
  | some _ => s.fs.lfsFsync cfg (workerPath tid) false io

/-- The file is compared with the buffer of what was synced. -/
def compareFile (s : Lfscheck) (tid : ℕ) (buf : Mem) (io : ReadIo) : Option Lfscheck :=
  (s.preadFile cfg tid buf args.upperBoundWrite 0 io).map fun r =>
    let w := s.workers tid
    let same := decide (r.2.1 = w.fileSize) &&
      decide (r.2.2.read 0 r.2.1.toNat = w.fileBuffer.read 0 r.2.1.toNat)
    ({ s with
        fs := r.1
        threadCheckFile := Function.update s.threadCheckFile tid false }.setWorker tid
      { w.forget args.upperBoundWrite with phase := .compared }).assert same

/-- The bytes from `bt` to `up` are written. -/
def writeRange (s : Lfscheck) (tid bt up : ℕ) (ch : UInt8) (io fillIo : WriteIo) :
    Option Lfscheck :=
  let writeSize := up - bt + 1
  (s.pwriteFile cfg tid (fun _ => ch) writeSize bt io fillIo).map fun r =>
    ({ s with fs := r.1 }.goTo tid (.written bt up ch)).assert (decide (r.2 = writeSize))

/-- They are read back. -/
def readRange (s : Lfscheck) (tid bt up : ℕ) (ch : UInt8) (buf : Mem) (io : ReadIo) :
    Option Lfscheck :=
  let writeSize := up - bt + 1
  (s.preadFile cfg tid buf writeSize bt io).map fun r =>
    ({ s with fs := r.1 }.setWorker tid
      { (s.workers tid).remember bt up ch with phase := .readBack }).assert
        (decide (r.2.1 = writeSize) && decide (r.2.2.read 0 writeSize
          = List.replicate writeSize ch))

/-- What was written is synced. -/
def syncFile (s : Lfscheck) (tid : ℕ) (io : Engine.SyncIo) : Option Lfscheck :=
  (s.fsyncFile cfg tid io).map fun r =>
    ({ s with fs := r.1 }.setWorker tid
      { (s.workers tid).save args.upperBoundWrite with phase := .head }).assert (decide (0 ≤ r.2))

/-- `unique_lock` can be taken: no worker is in a turn of its loop. -/
def lockFree (s : Lfscheck) : Bool :=
  (List.range args.gNrThreads).all fun tid => !(s.workers tid).phase.holdsLock

/-- A round of the monitor, with the variables it sets before `notify_all`. -/
def monitorRound (s : Lfscheck) (timeUp : Bool) : Lfscheck :=
  { s with
      fs := s.fs.clearAllCache cfg
      threadCheckFile := fun tid => decide (tid < args.gNrThreads) || s.threadCheckFile tid
      threadOpCount := fun tid => if tid < args.gNrThreads then 0 else s.threadOpCount tid
      canDoWork := true
      stopWorkers := s.stopWorkers || timeUp
      lastIteration := s.lastIteration || timeUp
      monitorFinished := timeUp }

/-- The action can be the next one. -/
def Enabled (s : Lfscheck) : CheckAction → Prop
  | .head tid => tid < args.gNrThreads ∧ (s.workers tid).phase = .head
  | .enter tid => tid < args.gNrThreads ∧ (s.workers tid).phase = .waiting ∧
      ((s.canDoWork = true ∧ s.threadOpCount tid < args.maxBurstOperations) ∨ s.stopWorkers = true)
  | .reopen tid .. => tid < args.gNrThreads ∧ (s.workers tid).phase = .entered
  | .compare tid .. => tid < args.gNrThreads ∧ (s.workers tid).phase = .reopened
  | .leave tid => tid < args.gNrThreads ∧ (s.workers tid).phase = .compared ∧ s.lastIteration = true
  | .pwrite tid bt up ch .. => tid < args.gNrThreads ∧ (s.workers tid).phase = .compared ∧
      s.lastIteration = false ∧ bt < up ∧ up < args.upperBoundWrite ∧ 65 ≤ ch ∧ ch ≤ 90
  | .pread tid .. => tid < args.gNrThreads ∧ (s.workers tid).phase.isWritten = true
  | .fsync tid .. => tid < args.gNrThreads ∧ (s.workers tid).phase = .readBack
  | .clear _ | .noFifo => s.monitorFinished = false ∧ s.lockFree args = true

instance (s : Lfscheck) : ∀ a, Decidable (s.Enabled args a)
  | .head _ | .enter _ | .reopen .. | .compare .. | .leave _ | .pwrite .. | .pread .. | .fsync ..
  | .clear _ | .noFifo => inferInstanceAs (Decidable (_ ∧ _))

/-- What an action does. -/
def act (s : Lfscheck) : CheckAction → Option Lfscheck
  | .head tid => some (s.goTo tid (if s.stopWorkers then .finished else .waiting))
  | .enter tid =>
      some ({ s with
        threadOpCount := Function.update s.threadOpCount tid (s.threadOpCount tid + 1) }.goTo
          tid .entered)
  | .reopen tid io fillIo =>
      if s.threadCheckFile tid then s.reopenFile cfg tid io fillIo else some (s.goTo tid .compared)
  | .compare tid buf io => s.compareFile cfg args tid buf io
  | .leave tid => some (s.goTo tid .finished)
  | .pwrite tid bt up ch io fillIo => s.writeRange cfg tid bt up ch io fillIo
  | .pread tid buf io =>
      match (s.workers tid).phase with
      | .written bt up ch => s.readRange cfg tid bt up ch buf io
      | _ => none
  | .fsync tid fs io => if fs then s.syncFile cfg args tid io else some (s.goTo tid .head)
  | .clear timeUp => some (s.monitorRound cfg args timeUp)
  | .noFifo =>
      some { s with
        canDoWork := true, stopWorkers := true, lastIteration := true, monitorFinished := true }

/-- One step: nothing happens after an assertion that failed. -/
def step (s : Lfscheck) (a : CheckAction) : Option Lfscheck :=
  if s.aborted then none else s.act cfg args a

/-- The state in which every worker has opened its file and the monitor sleeps. -/
def start (fs : FS) (ino : ℕ → ℕ) : Lfscheck where
  fs := fs
  workers := fun tid =>
    { phase := .head
      fdOperations := some ⟨ino tid, true, true⟩
      fileBuffer := fun _ => 0
      unsyncedBuf := fun _ => 0
      fileSize := 0
      lastOffCheckBottom := -1
      lastOffCheckUp := -1 }
  threadOpCount := fun _ => 0
  threadCheckFile := fun _ => false
  canDoWork := false
  stopWorkers := false
  lastIteration := false
  monitorFinished := false
  aborted := false

end Lfscheck

end LazyFS
