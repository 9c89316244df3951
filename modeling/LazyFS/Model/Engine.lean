import LazyFS.Model.Page

/-!
The page cache engine (`engine/backends/custom/custom_cache.cpp`).

* `Engine`: the pages, the free list, the LRU list with its iterators and the three maps of
  the owners.  A list node of the LRU list is a number that is never used twice, and an
  iterator is the number of its node.
* `getNextFreePage`, `evictPage`, `updateOwnerPages`, `allocateBlock` (one turn of the loop of
  `allocate_blocks`), `allocateBlocks`, `getBlocks`, `removeCachedBlocks`,
  `makeBlockReadableToOffset`, `syncPages`, `truncateCachedBlocks`, `getDirtyBlocksInfo`.

A function that may throw, through `at` on a missing key, a null page or the back of an empty
list, returns an `Option`; `none` is the exception.  A page id of `-1` is `none` as well.
-/

namespace LazyFS

/-- One entry of `owner_ordered_pages_mapping`: the page (its id and its pointer), the slot of
the block and whether the block is marked synced. -/
structure OrderedEntry where
  pageId : ℕ
  offsets : ℤ × ℤ
  isSynced : Bool
  deriving DecidableEq

/-- `CustomCacheEngine`. -/
structure Engine where
  /-- `list<int>`, front first, as pairs of a list node and the page id it holds. -/
  lruMainVector : List (ℕ × ℕ)
  pageOrderMapping : Map ℕ ℕ
  /-- The node that the next `push_front` creates. -/
  nextNode : ℕ
  searchIndex : ℕ → Page
  freePages : List ℕ
  ownerPagesMapping : Map String (List ℕ)
  ownerOrderedPagesMapping : Map String (Map ℤ OrderedEntry)
  ownerFreePagesMapping : Map String (List ℕ)

/-- How an allocation was asked for. -/
inductive AllocateOperationType where
  | opWrite
  | opRead
  | opPassthrough
  deriving DecidableEq

/-- One block handed to `allocate_blocks`: the page the caller believes it in, its data, the
length and the first byte inside the block. -/
structure BlockData where
  pageId : Option ℕ
  data : Mem
  len : ℕ
  offStart : ℤ

namespace Engine

variable (cfg : Config)

/-- The constructor: every page is free. -/
def new : Engine where
  lruMainVector := []
  pageOrderMapping := ∅
  nextNode := 0
  searchIndex := fun _ => Page.new cfg
  freePages := List.range cfg.cacheNrPages
  ownerPagesMapping := ∅
  ownerOrderedPagesMapping := ∅
  ownerFreePagesMapping := ∅

/-- The percentage of pages in use. -/
def getEngineUsage (e : Engine) : ℚ :=
  let usedPages : ℤ := cfg.cacheNrPages - e.freePages.length
  (usedPages : ℚ) / cfg.cacheNrPages * 100

def getPagePtr (e : Engine) (pageId : ℕ) : Option Page :=
  if pageId < cfg.cacheNrPages then some (e.searchIndex pageId) else none

/-- The engine with one page replaced. -/
def setPage (e : Engine) (pageId : ℕ) (pg : Page) : Engine :=
  { e with searchIndex := Function.update e.searchIndex pageId pg }

def isBlockCached (e : Engine) (contentOwnerId : String) (pageId : Option ℕ) (blockId : ℤ) :
    Bool :=
  match pageId.bind (e.getPagePtr cfg) with
  | none => false
  | some p => p.isPageOwner contentOwnerId && p.containsBlock blockId

/-! ### The LRU list -/

/-- `lru_main_vector.erase (it)` when the page has an iterator. -/
def lruErase (e : Engine) (pageId : ℕ) : Engine :=
  match e.pageOrderMapping.lookup pageId with
  | none => e
  | some node => { e with lruMainVector := e.lruMainVector.filter fun n => n.1 ≠ node }

/-- `push_front` and the new iterator. -/
def lruPushFront (e : Engine) (pageId : ℕ) : Engine :=
  { e with
      lruMainVector := (e.nextNode, pageId) :: e.lruMainVector
      pageOrderMapping := e.pageOrderMapping.set pageId e.nextNode
      nextNode := e.nextNode + 1 }

/-- `_apply_lru_after_page_visitation_on_WRITE`. -/
def applyLruOnWrite (e : Engine) (visitedPageId : ℕ) : Engine :=
  match e.pageOrderMapping.lookup visitedPageId with
  | none =>
      let e := e.lruPushFront visitedPageId
      if cfg.cacheNrPages < e.pageOrderMapping.entries.length then
        match e.lruMainVector.getLast? with
        | none => e
        | some (_, p) =>
            { e with
                pageOrderMapping := e.pageOrderMapping.erase p
                lruMainVector := e.lruMainVector.dropLast }
      else e
  | some _ => (e.lruErase visitedPageId).lruPushFront visitedPageId

/-- `_apply_lru_after_page_visitation_on_READ`. -/
def applyLruOnRead (e : Engine) (visitedPageId : ℕ) : Engine :=
  (e.lruErase visitedPageId).lruPushFront visitedPageId

/-! ### Allocation -/

/-- The eviction branch of `_get_next_free_page`: the page leaves the maps of its last owner,
is written back when dirty and is reset. -/
def evictPage (e : Engine) (d : Disk) (replacePageId : ℕ) : Engine × Disk :=
  let page := e.searchIndex replacePageId
  let oldOwner := page.pageOwnerId
  let blocks := page.allocatedBlockIds.getBlockReadableOffsets
  let ordered := e.ownerOrderedPagesMapping.update oldOwner fun m =>
    blocks.foldl (fun m b => AList.erase b.1 m) m
  let owned := e.ownerPagesMapping.update oldOwner fun s => s.erase replacePageId
  let synced := if page.isDirty then page.syncData cfg d else (page, d)
  ({ (e.setPage replacePageId (synced.1.reset cfg)) with
      ownerOrderedPagesMapping := ordered
      ownerPagesMapping := owned },
    synced.2)

/-- The last page with room of an owner.  The list of them is a copy, so that popping its back
leaves the owner's list as it is. -/
def pageWithRoom (e : Engine) (ownerId : String) : Option (Option ℕ) :=
  if (e.ownerPagesMapping.lookup ownerId).isSome then
    (e.ownerFreePagesMapping.lookup ownerId).map List.getLast?
  else some none

/-- `_get_next_free_page`: the page handed out, `none` when there is none. -/
def getNextFreePage (e : Engine) (d : Disk) (ownerId : String) :
    Option (Engine × Disk × Option ℕ) := do
  let room ← e.pageWithRoom ownerId
  match room with
  | some freePage => some (e, d, some freePage)
  | none =>
      match e.freePages.getLast? with
      | some lastIndex =>
          some ({ e with freePages := e.freePages.dropLast }, d, some lastIndex)
      | none =>
          if cfg.applyLruEviction then
            match e.lruMainVector.getLast? with
            | none => none
            | some (_, replacePageId) =>
                let r := e.evictPage cfg d replacePageId
                some (r.1, r.2, some replacePageId)
          else some (e, d, none)

/-- The part of `_update_owner_pages` that takes a page away from the owner it is still
labelled with: the entry erased is the one of the block id being stored. -/
def dropRealOwner (e : Engine) (realOwner : String) (pageId : ℕ) (blockId : ℤ) :
    Option Engine := do
  match e.ownerPagesMapping.lookup realOwner with
  | none => some e
  | some s =>
      let m ← e.ownerOrderedPagesMapping.lookup realOwner
      let s := s.erase pageId
      if s.isEmpty then
        some { e with
          ownerPagesMapping := e.ownerPagesMapping.erase realOwner
          ownerFreePagesMapping := e.ownerFreePagesMapping.erase realOwner
          ownerOrderedPagesMapping := e.ownerOrderedPagesMapping.erase realOwner }
      else
        some { e with
          ownerPagesMapping := e.ownerPagesMapping.set realOwner s
          ownerOrderedPagesMapping := e.ownerOrderedPagesMapping.set realOwner (m.erase blockId) }

/-- The part of `_update_owner_pages` that enters the page in the maps of the new owner. -/
def enterNewOwner (e : Engine) (newOwner : String) (pageId : ℕ) (blockId : ℤ)
    (blockOffsets : ℤ × ℤ) : Option Engine := do
  let entry : OrderedEntry := ⟨pageId, blockOffsets, false⟩
  let e ←
    match e.ownerPagesMapping.lookup newOwner with
    | some s => do
        let m ← e.ownerOrderedPagesMapping.lookup newOwner
        some { e with
          ownerPagesMapping := e.ownerPagesMapping.set newOwner (s.insert pageId)
          ownerOrderedPagesMapping :=
            e.ownerOrderedPagesMapping.set newOwner (m.insertNew blockId entry) }
    | none =>
        some { e with
          ownerPagesMapping := e.ownerPagesMapping.insertNew newOwner [pageId]
          ownerFreePagesMapping := e.ownerFreePagesMapping.insertNew newOwner []
          ownerOrderedPagesMapping :=
            e.ownerOrderedPagesMapping.insertNew newOwner (Map.single blockId entry) }
  if (e.searchIndex pageId).hasFreeSpace then do
    let v ← e.ownerFreePagesMapping.lookup newOwner
    some { e with ownerFreePagesMapping := e.ownerFreePagesMapping.set newOwner (v ++ [pageId]) }
  else some e

/-- `_update_owner_pages`. -/
def updateOwnerPages (e : Engine) (newOwner : String) (pageId : ℕ) (blockId : ℤ)
    (blockOffsets : ℤ × ℤ) : Option Engine := do
  match e.getPagePtr cfg pageId with
  | none => some e
  | some p =>
      let realOwner := p.pageOwnerId
      let e ←
        if realOwner = newOwner then some e
        else (e.setPage pageId (p.changeOwner newOwner)).dropRealOwner realOwner pageId blockId
      e.enterNewOwner newOwner pageId blockId blockOffsets

/-- The update of a block that is in the page the caller names. -/
def updateBlock (e : Engine) (contentOwnerId : String) (blkId : ℤ) (pageId : ℕ) (b : BlockData) :
    Option Engine := do
  let page := e.searchIndex pageId
  let e := e.setPage pageId (page.updateBlockData blkId b.data b.len b.offStart).1
  let m ← e.ownerOrderedPagesMapping.lookup contentOwnerId
  let entry ← m.lookup blkId
  some { e with
    ownerOrderedPagesMapping :=
      e.ownerOrderedPagesMapping.set contentOwnerId (m.set blkId { entry with isSynced := false }) }

/-- The block stored in the page that `_get_next_free_page` handed out. -/
def storeBlock (e : Engine) (contentOwnerId : String) (blkId : ℤ) (pageId : ℕ) (b : BlockData)
    (op : AllocateOperationType) : Option Engine := do
  let (page, offs) := (e.searchIndex pageId).getAllocateFreeOffset cfg blkId
  let page := (page.updateBlockData blkId b.data b.len b.offStart).1
  let page := if op = .opWrite then page.setPageAsDirty true else page
  let e := e.setPage pageId page
  let e := if cfg.applyLruEviction then e.applyLruOnWrite cfg pageId else e
  e.updateOwnerPages cfg contentOwnerId pageId blkId offs

/-- The block stored in a page that is free or becomes free, with the page reported for it. -/
def allocateFree (e : Engine) (d : Disk) (contentOwnerId : String) (blkId : ℤ) (b : BlockData)
    (op : AllocateOperationType) : Option (Engine × Disk × Option ℕ) := do
  let (e, d, next) ← e.getNextFreePage cfg d contentOwnerId
  match next with
  | some pageId =>
      if pageId < cfg.cacheNrPages then
        let e ← e.storeBlock cfg contentOwnerId blkId pageId b op
        some (e, d, some pageId)
      else some (e, d, none)
  | none => some (e, d, none)

/-- One turn of the loop of `allocate_blocks`. -/
def allocateBlock (e : Engine) (d : Disk) (contentOwnerId : String) (blkId : ℤ) (b : BlockData)
    (op : AllocateOperationType) : Option (Engine × Disk × Option ℕ) :=
  match b.pageId with
  | some pageId =>
      if e.isBlockCached cfg contentOwnerId (some pageId) blkId then
        (e.updateBlock contentOwnerId blkId pageId b).map fun e => (e, d, some pageId)
      else e.allocateFree cfg d contentOwnerId blkId b op
  | none => e.allocateFree cfg d contentOwnerId blkId b op

/-- The loop of `allocate_blocks` over the blocks still to be stored. -/
def allocateLoop (contentOwnerId : String) (op : AllocateOperationType) :
    List (ℤ × BlockData) → Engine → Disk → Map ℤ (Option ℕ) →
      Option (Engine × Disk × Map ℤ (Option ℕ))
  | [], e, d, res => some (e, d, res)
  | (blkId, b) :: rest, e, d, res => do
      let (e, d, page) ← e.allocateBlock cfg d contentOwnerId blkId b op
      allocateLoop contentOwnerId op rest e d (res.insertNew blkId page)

/-- `allocate_blocks`, with the map from blocks to allocated pages. -/
def allocateBlocks (e : Engine) (d : Disk) (contentOwnerId : String)
    (blockDataMapping : Map ℤ BlockData) (op : AllocateOperationType) :
    Option (Engine × Disk × Map ℤ (Option ℕ)) :=
  allocateLoop cfg contentOwnerId op blockDataMapping.sorted e d ∅

/-! ### Reading, removing, readable ends -/

/-- The loop of `get_blocks`: the block, the page asked for, the caller's buffer and the last
index to read.  The result is what was found and the buffers that were filled. -/
def getLoop (contentOwnerId : String) :
    List (ℤ × (Option ℕ × Mem × ℤ)) → Engine → Map ℤ Bool × Map ℤ Mem →
      Engine × (Map ℤ Bool × Map ℤ Mem)
  | [], e, res => (e, res)
  | (blkId, (pageId, data, readToMaxIndex)) :: rest, e, (found, buffers) =>
      match pageId with
      | some p =>
          if e.isBlockCached cfg contentOwnerId (some p) blkId then
            let buffer := (e.searchIndex p).getBlockData blkId data readToMaxIndex
            let e' := if cfg.applyLruEviction then e.applyLruOnRead p else e
            getLoop contentOwnerId rest e' (found.insertNew blkId true,
              buffers.insertNew blkId buffer)
          else
            getLoop contentOwnerId rest e (found.insertNew blkId false,
              buffers.insertNew blkId data)
      | none =>
          getLoop contentOwnerId rest e (found.insertNew blkId false, buffers.insertNew blkId data)

/-- `get_blocks`. -/
def getBlocks (e : Engine) (contentOwnerId : String) (blockPages : Map ℤ (Option ℕ × Mem × ℤ)) :
    Engine × (Map ℤ Bool × Map ℤ Mem) :=
  getLoop cfg contentOwnerId blockPages.sorted e (∅, ∅)

/-- The body of the loop of `remove_cached_blocks`: the page goes back to the free list. -/
def releasePage (e : Engine) (pageId : ℕ) : Engine :=
  let e := { e with freePages := e.freePages ++ [pageId] }
  let e :=
    if cfg.applyLruEviction then
      let e := e.lruErase pageId
      { e with pageOrderMapping := e.pageOrderMapping.erase pageId }
    else e
  e.setPage pageId (((e.searchIndex pageId).reset cfg).changeOwner "none")

/-- `remove_cached_blocks`. -/
def removeCachedBlocks (e : Engine) (owner : String) : Engine :=
  let e := { e with ownerFreePagesMapping := e.ownerFreePagesMapping.erase owner }
  match e.ownerPagesMapping.lookup owner with
  | none => e
  | some pages =>
      let e := (cfg.unordered pages).foldl (releasePage cfg) e
      { e with
          ownerPagesMapping := e.ownerPagesMapping.erase owner
          ownerOrderedPagesMapping := e.ownerOrderedPagesMapping.erase owner }

/-- `make_block_readable_to_offset`; a null page pointer is dereferenced. -/
def makeBlockReadableToOffset (e : Engine) (cid : String) (pageId : ℕ) (blockId offset : ℤ) :
    Option Engine := do
  let page ← e.getPagePtr cfg pageId
  if page.isPageOwner cid then some (e.setPage pageId (page.makeBlockReadableTo blockId offset))
  else some e

/-! ### Write-back -/

/-- How the calls of one write-back end: `open`, the `k`-th `pwritev`, `ftruncate`, and the
`fsync` or `fdatasync` of a file that is not cached. -/
structure SyncIo where
  openOk : Bool := true
  pwritev : ℕ → Fate := fun _ => .full
  ftruncateOk : Bool := true
  fsyncOk : Bool := true

/-- `IOV_MAX`. -/
def iovMax : ℕ := 1024

/-- One `pwritev` of `sync_pages`: the last block of the streak and its page chunk. -/
structure Streak where
  currentBlockId : ℤ
  pageChunk : List OrderedEntry

/-- The loop that collects the blocks of dirty pages; a page is set clean at its first block. -/
def dirtyLoop (e : Engine) : List (ℤ × OrderedEntry) → List (ℤ × OrderedEntry)
  | [] => []
  | b :: rest =>
      if (e.searchIndex b.2.pageId).isDirty then
        b :: dirtyLoop (e.setPage b.2.pageId ((e.searchIndex b.2.pageId).setPageAsDirty false)) rest
      else dirtyLoop e rest

/-- The dirty blocks of an owner in ascending order, `new_iterate_blocks`. -/
def dirtyBlocks (e : Engine) (m : Map ℤ OrderedEntry) : List (ℤ × OrderedEntry) :=
  e.dirtyLoop m.sorted

/-- The streak loop of `sync_pages`: the chunk grows while the next block is the next id and
the chunk is shorter than `IOV_MAX - 1`, and is flushed otherwise. -/
def streaks : List (ℤ × OrderedEntry) → List OrderedEntry → List Streak
  | [], _ => []
  | [(blk, entry)], chunk => [⟨blk, chunk ++ [entry]⟩]
  | (blk, entry) :: next :: rest, chunk =>
      if chunk.length < iovMax - 1 ∧ blk = next.1 - 1 then
        streaks (next :: rest) (chunk ++ [entry])
      else ⟨blk, chunk ++ [entry]⟩ :: streaks (next :: rest) []

/-- The bytes of the `pId`-th buffer of a streak: the whole block, except for the last one,
which stops at its readable end. -/
def iovBytes (e : Engine) (s : Streak) (pId : ℕ) (entry : OrderedEntry) : Option (List UInt8) := do
  let streakBlock := s.currentBlockId - s.pageChunk.length + pId + 1
  let page := e.searchIndex entry.pageId
  let len : ℤ ←
    if pId + 1 = s.pageChunk.length then
      (page.allocatedBlockIds.getReadableTo streakBlock).map (· + 1)
    else some cfg.ioBlockSize
  some (page.data.read entry.offsets.1 len.toNat)

/-- The buffers of a streak from the `pId`-th on, in order. -/
def iov (e : Engine) (s : Streak) : List OrderedEntry → ℕ → Option (List (List UInt8))
  | [], _ => some []
  | entry :: rest, pId => do
      let bytes ← e.iovBytes cfg s pId entry
      let more ← iov e s rest (pId + 1)
      some (bytes :: more)

/-- The file offset of a streak. -/
def Streak.offset (s : Streak) : ℤ :=
  (s.currentBlockId - s.pageChunk.length + 1) * cfg.ioBlockSize

/-- The entries of a streak marked synced, from the `pId`-th on. -/
def markSynced (s : Streak) : List OrderedEntry → ℕ → Map ℤ OrderedEntry →
    Option (Map ℤ OrderedEntry)
  | [], _, m => some m
  | _ :: rest, pId, m => do
      let streakBlock := s.currentBlockId - s.pageChunk.length + pId + 1
      let entry ← m.lookup streakBlock
      markSynced s rest (pId + 1) (m.set streakBlock { entry with isSynced := true })

/-- The flushes of the streaks, the `k`-th call first. -/
def flushStreaks (e : Engine) (fd : Option Fd) (io : SyncIo) :
    List Streak → ℕ → Map ℤ OrderedEntry → Disk → Option (Map ℤ OrderedEntry × Disk)
  | [], _, m, d => some (m, d)
  | s :: rest, k, m, d => do
      let buffers ← e.iov cfg s s.pageChunk 0
      let m ← markSynced s s.pageChunk 0 m
      flushStreaks e fd io rest (k + 1) m
        (d.pwrite fd (io.pwritev k) buffers.flatten (s.offset cfg)).2

/-- `set_page_as_dirty (false)` on the pages of a list of blocks. -/
def cleanPages (e : Engine) (blocks : List (ℤ × OrderedEntry)) : Engine :=
  blocks.foldl
    (fun e b => e.setPage b.2.pageId ((e.searchIndex b.2.pageId).setPageAsDirty false)) e

/-- `sync_pages`.  The function returns `0` whatever the calls return. -/
def syncPages (e : Engine) (d : Disk) (owner : String) (size : ℕ) (origPath : Path) (io : SyncIo) :
    Option (Engine × Disk) := do
  let fd := if io.openOk then d.openWrite origPath else none
  let (e, d) ←
    if (e.ownerPagesMapping.lookup owner).isSome then do
      let iterateBlocks ← e.ownerOrderedPagesMapping.lookup owner
      let newIterateBlocks := e.dirtyBlocks iterateBlocks
      let e := e.cleanPages newIterateBlocks
      let (m, d) ← e.flushStreaks cfg fd io (streaks newIterateBlocks []) 0 iterateBlocks d
      some ({ e with ownerOrderedPagesMapping := e.ownerOrderedPagesMapping.set owner m }, d)
    else some (e, d)
  some (e, (d.ftruncate fd io.ftruncateOk size).2)

/-! ### Truncation -/

/-- The body of the loop of `truncate_cached_blocks`; a null page pointer is dereferenced. -/
def truncateBlock (contentOwnerId : String) (fromBlockId indexInsideBlock : ℤ) (e : Engine)
    (blk : ℤ × Option ℕ) : Option Engine := do
  let pageId ← blk.2
  let page ← e.getPagePtr cfg pageId
  if page.isPageOwner contentOwnerId then
    if blk.1 = fromBlockId ∧ 0 < indexInsideBlock then
      if page.containsBlock fromBlockId then
        some (e.setPage pageId
          ((page.makeBlockReadableTo fromBlockId (indexInsideBlock - 1)).writeNullFrom cfg
            fromBlockId indexInsideBlock))
      else some e
    else
      let page := page.removeBlock cfg blk.1
      let s ← e.ownerPagesMapping.lookup contentOwnerId
      let m ← e.ownerOrderedPagesMapping.lookup contentOwnerId
      let e :=
        { (e.setPage pageId page) with
            ownerPagesMapping := e.ownerPagesMapping.set contentOwnerId (s.erase pageId)
            ownerOrderedPagesMapping :=
              e.ownerOrderedPagesMapping.set contentOwnerId (m.erase blk.1) }
      if page.isDirty then some e else some (e.releasePage cfg pageId)
  else some e

/-- `truncate_cached_blocks`. -/
def truncateCachedBlocks (e : Engine) (contentOwnerId : String)
    (blocksToRemove : Map ℤ (Option ℕ)) (fromBlockId indexInsideBlock : ℤ) : Option Engine :=
  (cfg.unordered blocksToRemove.toList).foldlM
    (truncateBlock cfg contentOwnerId fromBlockId indexInsideBlock) e

/-! ### The report of dirty blocks -/

/-- The loop of `get_dirty_blocks_info`: the blocks not marked synced, each with its first and last
readable byte and its page.  The readable end is read with `at` for every block. -/
def dirtyInfoLoop (e : Engine) : List (ℤ × OrderedEntry) → Option (List (ℤ × (ℤ × ℤ) × ℕ))
  | [] => some []
  | (blk, entry) :: rest => do
      let readableTo ← (e.searchIndex entry.pageId).allocatedBlockIds.getReadableTo blk
      let more ← dirtyInfoLoop e rest
      some (if entry.isSynced then more else (blk, (0, readableTo), entry.pageId) :: more)

/-- `get_dirty_blocks_info`. -/
def getDirtyBlocksInfo (e : Engine) (owner : String) : Option (List (ℤ × (ℤ × ℤ) × ℕ)) :=
  match e.ownerOrderedPagesMapping.lookup owner with
  | none => some []
  | some m => e.dirtyInfoLoop m.sorted

end Engine

end LazyFS
