import LazyFS.Model.Backing

/-!
The cached items (`item/block_info.cpp`, `item/data.cpp`, `item/item.cpp`,
`item/metadata.cpp`).

* `BlockInfo`: the page a block was last stored in and its readable range;
* `Data`: the block infos of one item; `Data.truncateBlocksAfter` is the loop that erases
  while it iterates;
* `Metadata`, `Item` and the update of selected metadata fields.
-/

namespace LazyFS

/-- `BlockInfo`; the page index `-1` is `none`. -/
structure BlockInfo where
  readableOffset : ℤ × ℤ
  pageIndexNumber : Option ℕ

namespace BlockInfo

/-- The constructor. -/
def new : BlockInfo := ⟨(0, 0), none⟩

def setPageIndexNumber (b : BlockInfo) (pageId : ℕ) : BlockInfo :=
  { b with pageIndexNumber := some pageId }

/-- `make_readable_to` never lowers the readable end. -/
def makeReadableTo (b : BlockInfo) (maxTo : ℤ) : BlockInfo :=
  if b.readableOffset.2 < maxTo then { b with readableOffset := (b.readableOffset.1, maxTo) } else b

def truncateReadableTo (b : BlockInfo) (maxTo : ℤ) : BlockInfo :=
  { b with readableOffset := (b.readableOffset.1, maxTo) }

end BlockInfo

/-- `Data`. -/
structure Data where
  blocks : Map ℤ BlockInfo

namespace Data

def new : Data := ⟨∅⟩

def getPageId (d : Data) (blkId : ℤ) : Option ℕ :=
  (d.blocks.lookup blkId).bind BlockInfo.pageIndexNumber

def hasBlock (d : Data) (blkId : ℤ) : Bool := (d.blocks.lookup blkId).isSome

/-- `set_block_page_id`, with the readable end after it. -/
def setBlockPageId (d : Data) (blkId : ℤ) (allocatedPage : ℕ) (readableTo : ℤ) : Data × ℤ :=
  let info := (((d.blocks.lookup blkId).getD .new).setPageIndexNumber allocatedPage).makeReadableTo
    readableTo
  (⟨d.blocks.set blkId info⟩, info.readableOffset.2)

def removeBlock (d : Data) (blkId : ℤ) : Data := ⟨d.blocks.erase blkId⟩

/-- `_get_readable_offsets`; a null pointer is dereferenced when the block is absent. -/
def getReadableOffsets (d : Data) (blkId : ℤ) : Option (ℤ × ℤ) :=
  (d.blocks.lookup blkId).map BlockInfo.readableOffset

def removeAllBlocks (_ : Data) : Data := ⟨∅⟩

def countBlocks (d : Data) : ℕ := d.blocks.entries.length

/-- The loop of `truncate_blocks_after`: the data and the map of truncated blocks so far. -/
def truncateLoop (blkId blkByteIndex : ℤ) :
    List (ℤ × BlockInfo) → Data → Map ℤ (Option ℕ) → Data × Map ℤ (Option ℕ)
  | [], d, res => (d, res)
  | (bId, info) :: rest, d, res =>
      if blkId ≤ bId then
        let res := res.insertNew bId info.pageIndexNumber
        if blkId < bId then truncateLoop blkId blkByteIndex rest (d.removeBlock bId) res
        else if blkByteIndex = 0 then truncateLoop blkId blkByteIndex rest (d.removeBlock bId) res
        else
          truncateLoop blkId blkByteIndex rest
            ⟨d.blocks.update blkId fun b => b.truncateReadableTo (blkByteIndex - 1)⟩ res
      else truncateLoop blkId blkByteIndex rest d res

/-- `truncate_blocks_after`. -/
def truncateBlocksAfter (cfg : Config) (d : Data) (blkId blkByteIndex : ℤ) :
    Data × Map ℤ (Option ℕ) :=
  truncateLoop blkId blkByteIndex (cfg.unordered d.blocks.toList) d ∅

end Data

/-- `Metadata`. -/
structure Metadata where
  nlinks : ℕ
  size : ℕ
  atim : Timespec
  mtim : Timespec
  ctim : Timespec
  deriving DecidableEq

/-- The constructor sets only the size and the link count. -/
def Metadata.new : Metadata := ⟨1, 0, default, default, default⟩

/-- The names of the metadata fields in a list of values to update. -/
inductive MetaField where
  | size
  | atime
  | ctime
  | mtime
  | nlinks
  deriving DecidableEq

/-- `Item`. -/
structure Item where
  data : Data
  metadata : Metadata
  dataSynced : Bool

namespace Item

/-- The constructor. -/
def new : Item := ⟨.new, .new, true⟩

/-- One value copied from the new metadata. -/
def updateField (newMeta m : Metadata) : MetaField → Metadata
  | .size => { m with size := newMeta.size }
  | .atime => { m with atim := newMeta.atim }
  | .ctime => { m with ctim := newMeta.ctim }
  | .mtime => { m with mtim := newMeta.mtim }
  | .nlinks => { m with nlinks := newMeta.nlinks }

/-- `update_metadata`. -/
def updateMetadata (it : Item) (newMeta : Metadata) (values : List MetaField) : Item :=
  { it with metadata := values.foldl (updateField newMeta) it.metadata }

def setDataSyncFlag (it : Item) (flag : Bool) : Item := { it with dataSynced := flag }

end Item

end LazyFS
