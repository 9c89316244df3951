import LazyFS.Model.Engine
import LazyFS.Model.Item

/-!
The cache (`cache.cpp`): the items by content id, the mapping from paths to inodes, and the
operations that keep items and engine in step.

* `Cache.putDataBlocks`, `Cache.getDataBlocks`, `Cache.isBlockCached`: blocks;
* `Cache.truncateItem`, `Cache.syncOwner`: truncation and write-back of one item;
* `Cache.insertInodeMapping`, `Cache.renameItem`, `Cache.removeCachedItem`, `Cache.clearAllCache`:
  names and items;
* `Cache.fullCheckpoint`, `Cache.reportUnsyncedData`: write-back of every mapped path, and the
  report.

Every function holds the lock of its item, and the item map's lock while it changes that map, so
that the model is sequential; of the locks the map `item_locks` keeps only its keys.
-/

namespace LazyFS

/-- `Cache`. -/
structure Cache where
  engine : Engine
  contents : Map String Item
  fileInodeMapping : Map Path String
  /-- The content ids that have a lock. -/
  itemLocks : Map String Unit

/-- One block handed to `put_data_blocks`: the data, its length, the first byte inside the
block and the readable end. -/
structure BlockPut where
  data : Mem
  len : ℕ
  offStart : ℤ
  rsTo : ℤ

namespace Cache

variable (cfg : Config)

/-- The constructor. -/
def new : Cache := ⟨Engine.new cfg, ∅, ∅, ∅⟩

def getCacheUsage (c : Cache) : ℚ := c.engine.getEngineUsage cfg

/-- `get_original_inode`, the empty string for a path that is not mapped. -/
def getOriginalInode (c : Cache) (path : Path) : String := (c.fileInodeMapping.lookup path).getD ""

def hasContentCached (c : Cache) (cid : String) : Bool := (c.contents.lookup cid).isSome

/-- The cache with one item replaced. -/
def setItem (c : Cache) (cid : String) (it : Item) : Cache :=
  { c with contents := c.contents.set cid it }

def getContentMetadata (c : Cache) (cid : String) : Option Metadata :=
  (c.contents.lookup cid).map Item.metadata

/-- `update_content_metadata`. -/
def updateContentMetadata (c : Cache) (cid : String) (newMeta : Metadata)
    (values : List MetaField) : Cache :=
  match c.contents.lookup cid with
  | none => c
  | some it => c.setItem cid (it.updateMetadata newMeta values)

/-- `insert_inode_mapping`. -/
def insertInodeMapping (c : Cache) (path : Path) (inode : String) (increase : Bool) : Cache :=
  let c := { c with fileInodeMapping := c.fileInodeMapping.set path inode }
  if increase then
    match c.getContentMetadata inode with
    | none => c
    | some oldMeta =>
        c.updateContentMetadata inode { Metadata.new with nlinks := oldMeta.nlinks + 1 } [.nlinks]
  else c

/-- `is_block_cached`. -/
def isBlockCached (c : Cache) (cid : String) (blkId : ℤ) : Bool :=
  match c.contents.lookup cid with
  | none => false
  | some it => c.engine.isBlockCached cfg cid (it.data.getPageId blkId) blkId

/-- `_create_item`. -/
def createItem (c : Cache) (cid : String) : Cache :=
  { c with
      contents := c.contents.insertNew cid .new
      itemLocks := c.itemLocks.insertNew cid () }

/-! ### Blocks -/

/-- The mapping that `put_data_blocks` passes to the engine: each block with the page the item
believes it in. -/
def putMapping (it : Item) (isNewItem : Bool) :
    List (ℤ × BlockPut) → Map ℤ BlockData → Map ℤ BlockData
  | [], m => m
  | (bid, b) :: rest, m =>
      let pageId := if isNewItem then none else it.data.getPageId bid
      putMapping it isNewItem rest (m.insertNew bid ⟨pageId, b.data, b.len, b.offStart⟩)

/-- The loop of `put_data_blocks` over the allocations: item, engine, result and whether a page
was allocated. -/
def putLoop (cid : String) (blocks : Map ℤ BlockPut) :
    List (ℤ × Option ℕ) → Item → Engine → Map ℤ Bool → Bool →
      Option (Item × Engine × Map ℤ Bool × Bool)
  | [], it, e, res, any => some (it, e, res, any)
  | (bid, allocatedPage) :: rest, it, e, res, any => do
      let b ← blocks.lookup bid
      match allocatedPage with
      | some page =>
          let (data, maxOffset) := it.data.setBlockPageId bid page b.rsTo
          let e ← e.makeBlockReadableToOffset cfg cid page bid maxOffset
          putLoop cid blocks rest { it with data := data } e (res.insertNew bid true) true
      | none =>
          putLoop cid blocks rest { it with data := it.data.removeBlock bid } e
            (res.insertNew bid false) any

/-- `put_data_blocks`, with the map of which blocks were stored. -/
def putDataBlocks (c : Cache) (d : Disk) (cid : String) (blocks : Map ℤ BlockPut)
    (op : AllocateOperationType) : Option (Cache × Disk × Map ℤ Bool) := do
  let isNewItem := !c.hasContentCached cid
  let c := if isNewItem then c.createItem cid else c
  let it ← c.contents.lookup cid
  let m := putMapping it isNewItem blocks.sorted ∅
  let (e, d, allocations) ← c.engine.allocateBlocks cfg d cid m op
  let (it, e, res, any) ← putLoop cfg cid blocks allocations.sorted it e ∅ false
  let it := if any then it.setDataSyncFlag false else it
  some ({ (c.setItem cid it) with engine := e }, d, res)

/-- `_get_readable_offsets`. -/
def getReadableOffsets (e : Engine) (cid : String) (it : Item) (blkId : ℤ) : Option (ℤ × ℤ) :=
  if e.isBlockCached cfg cid (it.data.getPageId blkId) blkId then it.data.getReadableOffsets blkId
  else some (0, 0)

/-- The requests of `get_data_blocks` for the blocks the item knows. -/
def getMapping (it : Item) :
    List (ℤ × Mem) → Map ℤ (Option ℕ × Mem × ℤ) → Map ℤ (Option ℕ × Mem × ℤ)
  | [], m => m
  | (blkId, buffer) :: rest, m =>
      if it.data.hasBlock blkId then
        getMapping it rest
          (m.insertNew blkId (it.data.getPageId blkId, buffer, cfg.ioBlockSize - 1))
      else getMapping it rest m

/-- The loop of `get_data_blocks` over the engine's answers. -/
def getLoop (e : Engine) (cid : String) :
    List (ℤ × Bool) → Item → Map ℤ (Bool × (ℤ × ℤ)) → Option (Item × Map ℤ (Bool × (ℤ × ℤ)))
  | [], it, res => some (it, res)
  | (blkId, found) :: rest, it, res => do
      let it := if found then it else { it with data := it.data.removeBlock blkId }
      let offs ← getReadableOffsets cfg e cid it blkId
      getLoop e cid rest it (res.insertNew blkId (found, offs))

/-- `get_data_blocks` on the buffers given for the blocks: for every block the item knows,
whether it was found and its readable offsets, and the buffers after the call. -/
def getDataBlocks (c : Cache) (cid : String) (blocks : Map ℤ Mem) :
    Option (Cache × Map ℤ (Bool × (ℤ × ℤ)) × Map ℤ Mem) :=
  match c.contents.lookup cid with
  | none => some (c, ∅, ∅)
  | some it => do
      let (e, found, buffers) := c.engine.getBlocks cfg cid (getMapping cfg it blocks.sorted ∅)
      let (it, res) ← getLoop cfg e cid found.sorted it ∅
      some ({ (c.setItem cid it) with engine := e }, res, buffers)

/-! ### One item -/

/-- `truncate_item`. -/
def truncateItem (c : Cache) (owner : String) (newSize : ℕ) : Option (Cache × Bool) :=
  match c.contents.lookup owner with
  | none => some (c, false)
  | some it => do
      if newSize = 0 then
        if 0 < it.data.countBlocks then
          let e := c.engine.removeCachedBlocks cfg owner
          some ({ (c.setItem owner { it with data := it.data.removeAllBlocks }) with engine := e },
            true)
        else some (c, true)
      else
        let fromBlockId := toInt (newSize / cfg.ioBlockSize)
        let fromBlockIndex : ℤ := newSize % cfg.ioBlockSize
        let (data, res) := it.data.truncateBlocksAfter cfg fromBlockId fromBlockIndex
        let e ← c.engine.truncateCachedBlocks cfg owner res fromBlockId fromBlockIndex
        let it := { it with data := data }.setDataSyncFlag false
        some ({ (c.setItem owner it) with engine := e }, true)

/-- `sync_owner`, with the result of `sync_pages`, which is `0`.  It ends with `utimes` on the
owner id taken as a path, which changes no byte and no name: that is `Disk.utimesRel`. -/
def syncOwner (c : Cache) (d : Disk) (owner : String) (_onlySyncData : Bool) (origPath : Path)
    (io : Engine.SyncIo) : Option (Cache × Disk × ℤ) :=
  match c.contents.lookup owner with
  | none => some (c, d, -1)
  | some it => do
      let (e, d) ← c.engine.syncPages cfg d owner it.metadata.size origPath io
      some ({ (c.setItem owner (it.setDataSyncFlag true)) with engine := e }, d, 0)

/-! ### Names -/

/-- The item with one link less, never below one. -/
def dropLink (it : Item) : Item :=
  it.updateMetadata { Metadata.new with nlinks := max (it.metadata.nlinks - 1) 1 } [.nlinks]

/-- The removal of an item with its pages and its lock. -/
def deleteItem (c : Cache) (cid : String) : Cache :=
  { c with
      engine := c.engine.removeCachedBlocks cfg cid
      contents := c.contents.erase cid
      itemLocks := c.itemLocks.erase cid }

/-- `rename_item`. -/
def renameItem (c : Cache) (oldCid newCid : Path) : Cache :=
  match c.fileInodeMapping.lookup oldCid with
  | none => c
  | some inode =>
      let toRemoveInode := (c.fileInodeMapping.lookup newCid).getD ""
      let c :=
        { c with fileInodeMapping := Map.set (c.fileInodeMapping.erase oldCid) newCid inode }
      match c.contents.lookup toRemoveInode with
      | none => c
      | some it =>
          let beforeNlinks := it.metadata.nlinks
          let c := c.setItem toRemoveInode (dropLink it)
          if 1 < beforeNlinks then c else c.deleteItem cfg toRemoveInode

/-- `remove_cached_item`. -/
def removeCachedItem (c : Cache) (owner : String) (path : Path) (isFromCache : Bool) :
    Cache × Bool :=
  match c.contents.lookup owner with
  | none => (c, false)
  | some it =>
      let c := { c with fileInodeMapping := c.fileInodeMapping.erase path }
      let beforeNlinks := it.metadata.nlinks
      let c := c.setItem owner (dropLink it)
      if !isFromCache ∧ 1 < beforeNlinks then (c, false) else (c.deleteItem cfg owner, true)

/-- `clear_all_cache`: path by path, then item by item. -/
def clearAllCache (c : Cache) : Cache :=
  let items := cfg.unordered c.fileInodeMapping.toList
  let c := items.foldl (fun c it => (c.removeCachedItem cfg it.2 it.1 true).1) c
  let itemBuckets := cfg.unordered (c.contents.toList.map Prod.fst)
  itemBuckets.foldl (fun c cid => c.deleteItem cfg cid) c

/-! ### The whole cache -/

/-- `full_checkpoint`: `sync_owner` on every mapped path, with how the calls for it end. -/
def fullCheckpoint (c : Cache) (d : Disk) (io : Path → Engine.SyncIo) : Option (Cache × Disk) :=
  (cfg.unordered c.fileInodeMapping.toList).foldlM
    (fun s it => (s.1.syncOwner cfg s.2 it.2 false it.1 (io it.1)).map fun r => (r.1, r.2.1)) (c, d)

/-- The loop of `report_unsynced_data` over the items. -/
def reportLoop (e : Engine) :
    List (String × Item) → Option (List (String × ℕ × List (ℤ × (ℤ × ℤ) × ℕ)))
  | [] => some []
  | (cid, it) :: rest =>
      if it.dataSynced then reportLoop e rest
      else do
        let info ← e.getDirtyBlocksInfo cid
        let more ← reportLoop e rest
        some ((cid, 0, info) :: more)

/-- `report_unsynced_data`. -/
def reportUnsyncedData (c : Cache) : Option (List (String × ℕ × List (ℤ × (ℤ × ℤ) × ℕ))) :=
  reportLoop c.engine (cfg.unordered c.contents.toList)

end Cache

end LazyFS
