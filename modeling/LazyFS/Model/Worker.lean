import LazyFS.Model.FaultRoutes

/-!
The loop of the worker that reads commands from the FIFO (`fht_worker` of `main.cpp`).

* `bufferString`: the string that one `read` leaves in the buffer.
* `fhtWorkerCommand`: what is done for a string; `fhtWorker` is the loop over the reads.

The messages of the worker and the FIFO that it answers on are left out.
-/

namespace LazyFS

open Program

/-- `MAX_READ_CHUNK`. -/
def maxReadChunk : ℕ := 255

/-- The byte that ends a string. -/
def nul : Char := Char.ofNat 0

/-- The string in the buffer after a `read` that returned `chunk`: the last byte is overwritten by
the end of the string, and a string stops at the first such byte. -/
def bufferString (chunk : List Char) : List Char := chunk.dropLast.takeWhile (· ≠ nul)

namespace Lfs

variable (cfg : Config)

/-- `command_checkpoint`, with how the calls for every path end. -/
def commandCheckpoint (io : Path → Engine.SyncIo) : FaultM PUnit :=
  liftFs fun fs => (fs.cache.fullCheckpoint cfg fs.disk io).map fun r => (⟨r.1, r.2⟩, ⟨⟩)

/-- What the worker does for one string, with the errors that are reported. -/
def fhtWorkerCommand (io : Path → Engine.SyncIo) (command : List Char) : FaultM (List String) :=
  if "lazyfs::crash".toList <+: command then fhtWorkerCrash command
  else if command = "lazyfs::clear-cache".toList then do
    commandFaultClearCache cfg
    pure []
  else if "lazyfs::torn-op".toList <+: command then fhtWorkerTornOp command
  else if "lazyfs::torn-seq".toList <+: command then fhtWorkerTornSeq command
  else if command = "lazyfs::cache-checkpoint".toList then do
    commandCheckpoint cfg io
    pure []
  else pure []

/-- `fht_worker`, on the bytes that its `read` calls return. -/
def fhtWorker (io : Path → Engine.SyncIo) (reads : List (List Char)) : FaultM PUnit :=
  Program.all (fhtWorkerCommand cfg io) (reads.map bufferString)

end Lfs

end LazyFS
