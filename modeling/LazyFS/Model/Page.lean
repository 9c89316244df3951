import LazyFS.Model.Backing

/-!
The pages of the cache engine (`engine/page/page.cpp`, `engine/page/block_offsets.cpp`).

* `BlockOffsets`: where each block of a page lies and up to which byte it is readable;
* `Page`: the dirty flag, the owner, the free slots, the data and the block offsets, with
  every operation the engine uses.  `Page.syncData` writes a page back to the file that its
  owner id names as a path.

A slot is given by its first byte; `(-1, -1)` is the pair of an absent block.
-/

namespace LazyFS

/-- `BlockOffsets`. -/
structure BlockOffsets where
  blockOffsetMapping : Map ℤ (ℤ × ℤ)
  blockReadableTo : Map ℤ ℤ

namespace BlockOffsets

def empty : BlockOffsets := ⟨∅, ∅⟩

def containsBlock (o : BlockOffsets) (blockId : ℤ) : Bool :=
  (o.blockOffsetMapping.lookup blockId).isSome

def getBlockOffsets (o : BlockOffsets) (blockId : ℤ) : ℤ × ℤ :=
  (o.blockOffsetMapping.lookup blockId).getD (-1, -1)

def insertOrUpdateBlockOffsets (o : BlockOffsets) (blockId : ℤ) (offsets : ℤ × ℤ) :
    BlockOffsets where
  blockOffsetMapping := o.blockOffsetMapping.insertNew blockId offsets
  blockReadableTo := o.blockReadableTo.insertNew blockId (-1)

def makeReadableTo (o : BlockOffsets) (blkId maxOffset : ℤ) : BlockOffsets :=
  { o with blockReadableTo := o.blockReadableTo.set blkId maxOffset }

/-- The readable ends as an ordered map. -/
def getBlockReadableOffsets (o : BlockOffsets) : List (ℤ × ℤ) := o.blockReadableTo.sorted

/-- `at`: `none` is the exception thrown for a missing key. -/
def getReadableTo (o : BlockOffsets) (blockId : ℤ) : Option ℤ := o.blockReadableTo.lookup blockId

def removeBlock (o : BlockOffsets) (blkId : ℤ) : BlockOffsets where
  blockOffsetMapping := o.blockOffsetMapping.erase blkId
  blockReadableTo := o.blockReadableTo.erase blkId

def isEmpty (o : BlockOffsets) : Bool := o.blockOffsetMapping.entries.isEmpty

end BlockOffsets

/-- `Page`. -/
structure Page where
  isDirty : Bool
  pageOwnerId : String
  /-- The first bytes of the free slots; the back of the vector is the last element. -/
  freeBlockIndexes : List ℤ
  data : Mem
  allocatedBlockIds : BlockOffsets

namespace Page

variable (cfg : Config)

/-- The first byte of every slot of a page. -/
def slots : List ℤ :=
  (List.range (cfg.cachePageSize / cfg.ioBlockSize)).map fun k : ℕ => (k : ℤ) * cfg.ioBlockSize

/-- The constructor `Page (config)`. -/
def new : Page where
  isDirty := false
  pageOwnerId := "none"
  freeBlockIndexes := slots cfg
  data := fun _ => 0
  allocatedBlockIds := .empty

def isPageOwner (pg : Page) (query : String) : Bool := pg.pageOwnerId = query

def changeOwner (pg : Page) (newOwner : String) : Page := { pg with pageOwnerId := newOwner }

def hasFreeSpace (pg : Page) : Bool := !pg.freeBlockIndexes.isEmpty

/-- `reset` keeps the owner. -/
def reset (pg : Page) : Page where
  isDirty := false
  pageOwnerId := pg.pageOwnerId
  freeBlockIndexes := slots cfg
  data := memset pg.data 0 0 cfg.cachePageSize
  allocatedBlockIds := .empty

def containsBlock (pg : Page) (blockId : ℤ) : Bool := pg.allocatedBlockIds.containsBlock blockId

def getBlockOffsets (pg : Page) (blockId : ℤ) : ℤ × ℤ :=
  pg.allocatedBlockIds.getBlockOffsets blockId

/-- The slot given to a block, `(-1, -1)` and no change when the page is full. -/
def getAllocateFreeOffset (pg : Page) (blockId : ℤ) : Page × (ℤ × ℤ) :=
  match pg.freeBlockIndexes.getLast? with
  | none => (pg, (-1, -1))
  | some freeIndex =>
      let allocatedOffset := (freeIndex, freeIndex + cfg.ioBlockSize - 1)
      ({ pg with
          freeBlockIndexes := pg.freeBlockIndexes.dropLast
          allocatedBlockIds :=
            pg.allocatedBlockIds.insertOrUpdateBlockOffsets blockId allocatedOffset },
        allocatedOffset)

/-- The buffer after `memcpy (buffer, data + off_min, off_max - off_min)`. -/
def getBlockData (pg : Page) (blockId : ℤ) (buffer : Mem) (readToMaxIndex : ℤ) : Mem :=
  let offMin := (pg.getBlockOffsets blockId).1
  let offMax := readToMaxIndex + 1
  memcpy buffer 0 pg.data offMin (offMax - offMin)

def setPageAsDirty (pg : Page) (dirty : Bool) : Page := { pg with isDirty := dirty }

/-- `_rewrite_offset_data`. -/
def rewriteOffsetData (pg : Page) (newData : Mem) (offMin offMax : ℤ) : Page :=
  { pg with isDirty := true, data := memcpy pg.data offMin newData 0 (offMax - offMin + 1) }

/-- The page after `update_block_data`, and whether the block was there to be updated. -/
def updateBlockData (pg : Page) (blockId : ℤ) (newData : Mem) (dataLength : ℕ) (offStart : ℤ) :
    Page × Bool :=
  let blockOffsets := pg.getBlockOffsets blockId
  if 0 ≤ blockOffsets.1 ∧ 0 < blockOffsets.2 then
    (pg.rewriteOffsetData newData (blockOffsets.1 + offStart)
      (blockOffsets.1 + offStart + dataLength - 1), true)
  else (pg, false)

def makeBlockReadableTo (pg : Page) (blkId maxOffset : ℤ) : Page :=
  { pg with allocatedBlockIds := pg.allocatedBlockIds.makeReadableTo blkId maxOffset }

/-- `memset (data + off_first + from_offset, 0, IO_BLOCK_SIZE - off_first - from_offset)`. -/
def writeNullFrom (pg : Page) (blockId fromOffset : ℤ) : Page :=
  let offFirst := (pg.getBlockOffsets blockId).1
  { pg with
      data := memset pg.data (offFirst + fromOffset) 0 (cfg.ioBlockSize - offFirst - fromOffset) }

def removeBlock (pg : Page) (blockId : ℤ) : Page :=
  let pg :=
    if pg.containsBlock blockId then
      let offFirst := (pg.getBlockOffsets blockId).1
      { pg with
          freeBlockIndexes := pg.freeBlockIndexes ++ [offFirst]
          allocatedBlockIds := pg.allocatedBlockIds.removeBlock blockId
          data := memset pg.data offFirst 0 cfg.ioBlockSize }
    else pg
  if pg.allocatedBlockIds.isEmpty then pg.setPageAsDirty false else pg

/-- The loop of `sync_data` over the readable ends: the bytes that should have been written,
the sum of the results of the calls and the disk.  The file offset is an `int`. -/
def syncBlocks (pg : Page) (fd : Option Fd) : List (ℤ × ℤ) → ℤ × ℤ × Disk → ℤ × ℤ × Disk
  | [], acc => acc
  | (blk, readable) :: rest, (shouldWrite, actuallyWrote, d) =>
      if pg.containsBlock blk then
        let dataOffsets := pg.getBlockOffsets blk
        let offset := toInt (blk * cfg.ioBlockSize)
        let totalBytes : ℤ := if rest.isEmpty then readable + 1 else cfg.ioBlockSize
        let pw := d.pwrite fd .full (pg.data.read dataOffsets.1 totalBytes.toNat) offset
        syncBlocks pg fd rest (shouldWrite + totalBytes, actuallyWrote + pw.1, pw.2)
      else syncBlocks pg fd rest (shouldWrite, actuallyWrote, d)

/-- `sync_data`: the file written is the one whose name, relative to the working directory,
is the owner id of the page. -/
def syncData (pg : Page) (d : Disk) : Page × Disk :=
  let fd := d.openWriteRel pg.pageOwnerId
  let r := syncBlocks cfg pg fd pg.allocatedBlockIds.getBlockReadableOffsets (0, 0, d)
  (if r.1 = r.2.1 then pg.setPageAsDirty false else pg, r.2.2)

end Page

end LazyFS
