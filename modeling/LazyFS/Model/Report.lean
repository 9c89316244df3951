import LazyFS.Model.Cache

/-!
The report of unsynced data (`command_unsynced_data_report` of `lazyfs.cpp`).

* `Cache.findFilesMappedToInode`: the paths of an inode.
* `ReportLine`: the lines of the report; `ReportState`: the variables of the loops.
* `reportBlock`, `reportInode`, `Cache.commandUnsyncedDataReport`.

The element after the last one of a vector is whatever the memory holds there: a parameter, and the
read is recorded.  The two lines that announce the report are left out.
-/

namespace LazyFS

/-- The lines of the report. -/
inductive ReportLine where
  /-- All data blocks are synced. -/
  | allSynced
  /-- The inode is not fully synced. -/
  | notSynced (ino : String)
  /-- The blocks from one to another, and the byte indexes. -/
  | range (ino : String) (fromBlock toBlock byteFrom : ℤ) (byteTo : ℕ)
  /-- The heading of the list of files. -/
  | filesMapped (ino : String)
  | file (ino : String) (path : Path)
  /-- The total number of bytes. -/
  | total (bytes : ℕ)
  /-- Some files were excluded. -/
  | excluded
  deriving DecidableEq

/-- The variables of the report: the lines so far, the total, and those of the loop over the
blocks. -/
structure ReportState where
  lines : List ReportLine
  totalBytesUnsynced : ℕ
  lastBlockIndex : ℤ
  lastBlockOffStart : ℤ
  firstBlockId : ℤ
  /-- An element past the end of a list of blocks was read. -/
  readPastEnd : Bool

namespace ReportState

def print (s : ReportState) (l : ReportLine) : ReportState := { s with lines := s.lines ++ [l] }

/-- The first block of an inode sets the three variables. -/
def start (s : ReportState) (blockId offFrom : ℤ) : ReportState :=
  if s.lastBlockIndex < 0 then
    { s with lastBlockIndex := blockId, lastBlockOffStart := offFrom, firstBlockId := blockId }
  else s

/-- The line of a range that ends with a block. -/
def rangeLine (cfg : Config) (ino : String) (s : ReportState) (blockId : ℤ) (offs : ℤ × ℤ) :
    ReportLine :=
  .range ino s.lastBlockIndex blockId s.lastBlockOffStart
    ((offs.2 + blockId * cfg.ioBlockSize - s.firstBlockId * cfg.ioBlockSize) % 2 ^ 64).toNat

/-- A range is printed, and the next one starts with the same block. -/
def endRange (cfg : Config) (ino : String) (s : ReportState) (blockId : ℤ) (offs : ℤ × ℤ) :
    ReportState :=
  { s.print (s.rangeLine cfg ino blockId offs) with
    lastBlockOffStart := offs.1
    lastBlockIndex := blockId }

/-- The bytes of a block added to the total, a `size_t`. -/
def addBytes (s : ReportState) (offs : ℤ × ℤ) : ReportState :=
  { s with totalBytesUnsynced := ((s.totalBytesUnsynced + (offs.2 - offs.1 + 1)) % 2 ^ 64).toNat }

end ReportState

variable (cfg : Config)

/-- The loop over the blocks of an inode; `past` is the block id read past their end. -/
def reportBlocks (ino : String) (past : ℤ) : List (ℤ × (ℤ × ℤ) × ℕ) → ReportState → ReportState
  | [], s => s
  | (blockId, offs, _) :: rest, s =>
      let s := s.start blockId offs.1
      let next := rest.head?.elim past Prod.fst
      let s := { s with readPastEnd := s.readPastEnd || rest.isEmpty }
      let s := if blockId ≠ next - 1 then s.endRange cfg ino blockId offs else s
      reportBlocks ino past rest (s.addBytes offs)

/-- Whether an inode with these files is reported. -/
def isReported (pathsToExclude : List String) (filesMapped : List Path) : Bool :=
  if 0 < pathsToExclude.length then filesMapped.any fun p => pathsToExclude.contains p.str else true

/-- The body of the loop over the inodes. -/
def reportInode (pathsToExclude : List String) (files : String → List Path) (past : String → ℤ)
    (s : ReportState) (it : String × ℕ × List (ℤ × (ℤ × ℤ) × ℕ)) : ReportState :=
  let filesMapped := files it.1
  if isReported pathsToExclude filesMapped then
    if 0 < it.2.2.length ∧ 0 < filesMapped.length then
      let s := { s.print (.notSynced it.1) with
        lastBlockIndex := -1, lastBlockOffStart := -1, firstBlockId := -1 }
      let s := (reportBlocks cfg it.1 (past it.1) it.2.2 s).print (.filesMapped it.1)
      filesMapped.foldl (fun s p => s.print (.file it.1 p)) s
    else s
  else s

/-- The report for a result of `report_unsynced_data`. -/
def reportOf (pathsToExclude : List String) (files : String → List Path) (past : String → ℤ)
    (res : List (String × ℕ × List (ℤ × (ℤ × ℤ) × ℕ))) : ReportState :=
  let s : ReportState := ⟨[], 0, -1, -1, -1, false⟩
  if res.isEmpty then s.print .allSynced
  else
    let s := res.foldl (reportInode cfg pathsToExclude files past) s
    let s := s.print (.total s.totalBytesUnsynced)
    if 0 < pathsToExclude.length then s.print .excluded else s

namespace Cache

/-- `find_files_mapped_to_inode`. -/
def findFilesMappedToInode (c : Cache) (inode : String) : List Path :=
  ((cfg.unordered c.fileInodeMapping.toList).filter fun m => m.2 = inode).map Prod.fst

/-- `command_unsynced_data_report`. -/
def commandUnsyncedDataReport (c : Cache) (pathsToExclude : List String) (past : String → ℤ) :
    Option ReportState :=
  (c.reportUnsyncedData cfg).map (reportOf cfg pathsToExclude (c.findFilesMappedToInode cfg) past)

end Cache

end LazyFS
