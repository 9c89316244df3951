import LazyFS.Model.Page

/-!
The shapes of a page when a page holds one block.

* `BarePage`: a page without a block, as `reset` leaves it; `FreePage`: one that nobody owns.
* `UsedPage cfg o b`: the page of the block `b` of the owner `o`, in the only slot `(0, B - 1)`.
* `ReadsTo b r`: `b` is the only block with a readable end, which is `r`.
* What every operation does to a page of a given shape; `storedPage` is a bare page after a
  block is stored in it.
-/

namespace LazyFS

variable {cfg : Config}

/-- The slot of the only block of a page. -/
def slot (cfg : Config) : ℤ × ℤ := (0, cfg.ioBlockSize - 1)

/-- A page without a block. -/
structure BarePage (cfg : Config) (pg : Page) : Prop where
  clean : pg.isDirty = false
  slots : pg.freeBlockIndexes = [0]
  zero : pg.data.read 0 cfg.ioBlockSize = List.replicate cfg.ioBlockSize 0
  blocks : pg.allocatedBlockIds = .empty

/-- A page that nobody owns. -/
structure FreePage (cfg : Config) (pg : Page) : Prop extends BarePage cfg pg where
  owner : pg.pageOwnerId = "none"

/-- The page of the block `b` of the owner `o`. -/
structure UsedPage (cfg : Config) (o : String) (b : ℤ) (pg : Page) : Prop where
  owner : pg.pageOwnerId = o
  slots : pg.freeBlockIndexes = []
  offsets : pg.allocatedBlockIds.blockOffsetMapping = Map.single b (slot cfg)
  readable : (pg.allocatedBlockIds.blockReadableTo.lookup b).isSome

/-- `b` is the only block with a readable end. -/
def ReadsTo (b r : ℤ) (pg : Page) : Prop := pg.allocatedBlockIds.blockReadableTo = Map.single b r

/-! ### Bare pages -/

lemma OneBlock.slots_eq (h : OneBlock cfg) : Page.slots cfg = [0] := by
  rw [Page.slots, h.div_eq]
  simp

lemma OneBlock.barePage_reset (h : OneBlock cfg) (pg : Page) : BarePage cfg (pg.reset cfg) where
  clean := rfl
  slots := h.slots_eq
  zero := by
    rw [Page.reset, h.page_eq]
    exact read_memset_zero pg.data _
  blocks := rfl

lemma read_new (n : ℕ) : (Page.new cfg).data.read 0 n = List.replicate n 0 := by
  refine List.ext_getElem? fun i => ?_
  by_cases hi : i < n
  · rw [Mem.getElem?_read _ _ hi, List.getElem?_replicate, if_pos hi]
    rfl
  · rw [List.getElem?_eq_none (by simpa using hi), List.getElem?_eq_none (by simpa using hi)]

lemma OneBlock.freePage_new (h : OneBlock cfg) : FreePage cfg (Page.new cfg) where
  clean := rfl
  slots := h.slots_eq
  zero := read_new _
  blocks := rfl
  owner := rfl

/-- The page that goes back to the free list. -/
lemma OneBlock.freePage_released (h : OneBlock cfg) (pg : Page) :
    FreePage cfg ((pg.reset cfg).changeOwner "none") where
  toBarePage := ⟨rfl, h.slots_eq, (h.barePage_reset pg).zero, rfl⟩
  owner := rfl

namespace BarePage

variable {pg : Page}

lemma containsBlock (h : BarePage cfg pg) (b : ℤ) : pg.containsBlock b = false := by
  rw [Page.containsBlock, h.blocks]
  rfl

lemma getAllocateFreeOffset (h : BarePage cfg pg) (b : ℤ) :
    pg.getAllocateFreeOffset cfg b
      = ({ pg with
            freeBlockIndexes := []
            allocatedBlockIds := ⟨Map.single b (slot cfg), Map.single b (-1)⟩ }, slot cfg) := by
  rw [Page.getAllocateFreeOffset, h.slots, h.blocks]
  simp [slot, BlockOffsets.insertOrUpdateBlockOffsets, BlockOffsets.empty, Map.insertNew_empty]

end BarePage

/-! ### Used pages -/

namespace UsedPage

variable {pg : Page} {o : String} {b : ℤ}

lemma containsBlock (h : UsedPage cfg o b pg) (b' : ℤ) :
    pg.containsBlock b' = decide (b' = b) := by
  rw [Page.containsBlock, BlockOffsets.containsBlock, h.offsets, Map.lookup_single]
  by_cases hb : b' = b <;> simp [hb]

lemma getBlockOffsets (h : UsedPage cfg o b pg) : pg.getBlockOffsets b = slot cfg := by
  rw [Page.getBlockOffsets, BlockOffsets.getBlockOffsets, h.offsets, Map.lookup_single_self,
    Option.getD_some]

/-- An update of the block: the page is dirty and its data are overwritten in place. -/
lemma updateBlockData (h : UsedPage cfg o b pg) (hB : 2 ≤ cfg.ioBlockSize) (data : Mem) (len : ℕ)
    (off : ℤ) :
    pg.updateBlockData b data len off
      = ({ pg with isDirty := true, data := memcpy pg.data off data 0 len }, true) := by
  rw [Page.updateBlockData, h.getBlockOffsets]
  have hs : 0 ≤ (slot cfg).1 ∧ 0 < (slot cfg).2 := by simp only [slot]; omega
  rw [if_pos hs, Page.rewriteOffsetData]
  have hlen : (slot cfg).1 + off + len - 1 - ((slot cfg).1 + off) + 1 = len := by ring
  rw [hlen, slot, zero_add]

lemma of_data (h : UsedPage cfg o b pg) (dirty : Bool) (data : Mem) :
    UsedPage cfg o b { pg with isDirty := dirty, data := data } :=
  ⟨h.owner, h.slots, h.offsets, h.readable⟩

lemma setPageAsDirty (h : UsedPage cfg o b pg) (dirty : Bool) :
    UsedPage cfg o b (pg.setPageAsDirty dirty) := ⟨h.owner, h.slots, h.offsets, h.readable⟩

lemma changeOwner (h : UsedPage cfg o b pg) (o' : String) : UsedPage cfg o' b (pg.changeOwner o') :=
  ⟨rfl, h.slots, h.offsets, h.readable⟩

lemma updateBlockData' (h : UsedPage cfg o b pg) (data : Mem) (len : ℕ) (off : ℤ) :
    UsedPage cfg o b (pg.updateBlockData b data len off).1 := by
  rw [Page.updateBlockData]
  split_ifs
  · exact h.of_data true _
  · exact h

lemma makeBlockReadableTo (h : UsedPage cfg o b pg) (b' r : ℤ) :
    UsedPage cfg o b (pg.makeBlockReadableTo b' r) := by
  refine ⟨h.owner, h.slots, h.offsets, ?_⟩
  rw [Page.makeBlockReadableTo, BlockOffsets.makeReadableTo, Map.lookup_set]
  split_ifs
  · rfl
  · exact h.readable

lemma readsTo_makeBlockReadableTo {r : ℤ} (hr : ReadsTo b r pg) (r' : ℤ) :
    ReadsTo b r' (pg.makeBlockReadableTo b r') := by
  rw [ReadsTo] at hr ⊢
  rw [Page.makeBlockReadableTo, BlockOffsets.makeReadableTo, hr, Map.set_single]

lemma writeNullFrom (h : UsedPage cfg o b pg) (b' off : ℤ) :
    UsedPage cfg o b (pg.writeNullFrom cfg b' off) :=
  ⟨h.owner, h.slots, h.offsets, h.readable⟩

/-- The page after its only block is removed: no block is left, so that it is clean. -/
lemma isDirty_removeBlock (h : UsedPage cfg o b pg) : (pg.removeBlock cfg b).isDirty = false := by
  have hc : pg.containsBlock b = true := by rw [h.containsBlock, decide_eq_true_eq]
  simp only [Page.removeBlock, hc, if_true]
  have he : ((pg.allocatedBlockIds.removeBlock b).isEmpty) = true := by
    rw [BlockOffsets.isEmpty, BlockOffsets.removeBlock, h.offsets]
    show (AList.erase b (Map.single b (slot cfg))).entries.isEmpty = true
    rw [Map.erase_single]
    rfl
  rw [he]
  rfl

end UsedPage

/-! ### Storing a block -/

/-- A bare page after a block of `o` is stored in it. -/
def storedPage (cfg : Config) (pg : Page) (o : String) (b : ℤ) (data : Mem) (len : ℕ) (off : ℤ) :
    Page where
  isDirty := true
  pageOwnerId := o
  freeBlockIndexes := []
  data := memcpy pg.data off data 0 len
  allocatedBlockIds := ⟨Map.single b (slot cfg), Map.single b (-1)⟩

section

variable {pg : Page} {o : String} {b : ℤ} {data : Mem} {len : ℕ} {off : ℤ}

lemma usedPage_storedPage : UsedPage cfg o b (storedPage cfg pg o b data len off) :=
  ⟨rfl, rfl, rfl, by rw [storedPage, Map.lookup_single_self]; rfl⟩

lemma readsTo_storedPage : ReadsTo b (-1) (storedPage cfg pg o b data len off) := rfl

/-- What `allocate_blocks` makes of a bare page before the page changes hands. -/
lemma BarePage.stored (h : BarePage cfg pg) (hB : 2 ≤ cfg.ioBlockSize) :
    ((pg.getAllocateFreeOffset cfg b).1.updateBlockData b data len off).1
      = storedPage cfg pg pg.pageOwnerId b data len off := by
  rw [h.getAllocateFreeOffset]
  have hu : UsedPage cfg pg.pageOwnerId b
      { pg with
        freeBlockIndexes := []
        allocatedBlockIds := ⟨Map.single b (slot cfg), Map.single b (-1)⟩ } :=
    ⟨rfl, rfl, rfl, by rw [Map.lookup_single_self]; rfl⟩
  rw [hu.updateBlockData hB]
  rfl

/-- The bytes of a block that was just stored. -/
lemma BarePage.read_storedPage (h : BarePage cfg pg) {start : ℕ}
    (hlen : start + len ≤ cfg.ioBlockSize) :
    (storedPage cfg pg o b data len start).data.read 0 cfg.ioBlockSize
      = Bytes.write (List.replicate cfg.ioBlockSize 0) start (data.read 0 len) := by
  rw [storedPage, read_memcpy _ _ _ hlen, h.zero]

end

end LazyFS
