import LazyFS.Rep.Table

/-!
The slots of a page, for any number of blocks per page.

* `Page.Slotted`: every block of a page has a slot of its own, which is not free; kept by
  `get_allocate_free_offset`, `update_block_data` and `remove_block`.
* `Page.Keeps`: an operation on a block leaves the other blocks of the page and their bytes alone.
* `Engine.SlotsOk`: the pages of the engine, the free list and the pages with room of the owners;
  `SlotsOk.allocateBlock` is what one turn of `allocate_blocks` does to the pages without eviction.
-/

namespace LazyFS

variable {cfg : Config}

namespace Page

variable {pg pg' : Page} {b : ℤ}

/-- The bytes of a block. -/
def blockBytes (cfg : Config) (pg : Page) (b : ℤ) : List UInt8 :=
  pg.data.read (pg.getBlockOffsets b).1 cfg.ioBlockSize

/-- Every block has a slot of its own, and a free slot is no block's. -/
structure Slotted (cfg : Config) (pg : Page) : Prop where
  nodup : pg.freeBlockIndexes.Nodup
  free : ∀ s ∈ pg.freeBlockIndexes, s ∈ slots cfg
  block : ∀ b off, pg.allocatedBlockIds.blockOffsetMapping.lookup b = some off →
    off.1 ∈ slots cfg ∧ off.2 = off.1 + cfg.ioBlockSize - 1 ∧ off.1 ∉ pg.freeBlockIndexes
  apart : ∀ b b' off off', pg.allocatedBlockIds.blockOffsetMapping.lookup b = some off →
    pg.allocatedBlockIds.blockOffsetMapping.lookup b' = some off' → off.1 = off'.1 → b = b'

/-- The other blocks than `b` are in `pg'` as they are in `pg`. -/
def Keeps (cfg : Config) (b : ℤ) (pg pg' : Page) : Prop :=
  ∀ b', b' ≠ b → pg'.containsBlock b' = pg.containsBlock b' ∧
    (pg.containsBlock b' = true → pg'.blockBytes cfg b' = pg.blockBytes cfg b')

lemma Keeps.trans {pg'' : Page} (h : Keeps cfg b pg pg') (h' : Keeps cfg b pg' pg'') :
    Keeps cfg b pg pg'' := fun b' hb' =>
  ⟨(h' b' hb').1.trans (h b' hb').1, fun hc =>
    ((h' b' hb').2 ((h b' hb').1.trans hc)).trans ((h b' hb').2 hc)⟩

lemma Keeps.of_eq (hd : pg'.data = pg.data) (ha : pg'.allocatedBlockIds = pg.allocatedBlockIds) :
    Keeps cfg b pg pg' := fun b' _ =>
  ⟨by rw [containsBlock, containsBlock, ha], fun _ => by
    rw [blockBytes, blockBytes, getBlockOffsets, getBlockOffsets, ha, hd]⟩

lemma Slotted.congr (h : Slotted cfg pg) (hf : pg'.freeBlockIndexes = pg.freeBlockIndexes)
    (ha : pg'.allocatedBlockIds = pg.allocatedBlockIds) : Slotted cfg pg' :=
  ⟨hf ▸ h.nodup, hf ▸ h.free, ha ▸ hf ▸ h.block, ha ▸ h.apart⟩

lemma containsBlock_iff :
    pg.containsBlock b = true ↔ ∃ off, pg.allocatedBlockIds.blockOffsetMapping.lookup b
      = some off := by
  rw [containsBlock, BlockOffsets.containsBlock, Option.isSome_iff_exists]

lemma getBlockOffsets_of_lookup {off : ℤ × ℤ}
    (h : pg.allocatedBlockIds.blockOffsetMapping.lookup b = some off) :
    pg.getBlockOffsets b = off := by
  rw [getBlockOffsets, BlockOffsets.getBlockOffsets, h, Option.getD_some]

/-- Two slots do not overlap. -/
lemma slots_apart {s s' : ℤ} (hs : s ∈ slots cfg) (hs' : s' ∈ slots cfg) (hne : s ≠ s') :
    s + cfg.ioBlockSize ≤ s' ∨ s' + cfg.ioBlockSize ≤ s := by
  obtain ⟨j, -, rfl⟩ := List.mem_map.mp hs
  obtain ⟨j', -, rfl⟩ := List.mem_map.mp hs'
  rcases lt_trichotomy j j' with hlt | heq | hlt
  · left
    calc (j : ℤ) * cfg.ioBlockSize + cfg.ioBlockSize = ((j + 1 : ℕ) : ℤ) * cfg.ioBlockSize := by
          push_cast
          ring
      _ ≤ (j' : ℤ) * cfg.ioBlockSize :=
          mul_le_mul_of_nonneg_right (by exact_mod_cast hlt) (by positivity)
  · exact absurd (by rw [heq]) hne
  · right
    calc (j' : ℤ) * cfg.ioBlockSize + cfg.ioBlockSize = ((j' + 1 : ℕ) : ℤ) * cfg.ioBlockSize := by
          push_cast
          ring
      _ ≤ (j : ℤ) * cfg.ioBlockSize :=
          mul_le_mul_of_nonneg_right (by exact_mod_cast hlt) (by positivity)

lemma nodup_slots (h : 0 < cfg.ioBlockSize) : (slots cfg).Nodup := by
  refine List.Nodup.map (fun j j' heq => ?_) List.nodup_range
  have hB : (cfg.ioBlockSize : ℤ) ≠ 0 := by exact_mod_cast h.ne'
  exact_mod_cast mul_right_cancel₀ hB heq

/-- A page without a block, all its slots free. -/
lemma slotted_of_empty (h : 0 < cfg.ioBlockSize) (hf : pg.freeBlockIndexes = slots cfg)
    (ha : pg.allocatedBlockIds = .empty) : Slotted cfg pg where
  nodup := hf ▸ nodup_slots h
  free := fun s hs => hf ▸ hs
  block := fun b off hoff => by
    rw [ha] at hoff
    cases hoff
  apart := fun b b' off off' hoff => by
    rw [ha] at hoff
    cases hoff

namespace Slotted

/-- The bytes of another block lie outside the slot of a block. -/
lemma outside (h : Slotted cfg pg) {b b' : ℤ} {off off' : ℤ × ℤ} (hne : b' ≠ b)
    (hoff : pg.allocatedBlockIds.blockOffsetMapping.lookup b = some off)
    (hoff' : pg.allocatedBlockIds.blockOffsetMapping.lookup b' = some off') {i : ℕ}
    (hi : i < cfg.ioBlockSize) :
    off'.1 + i < off.1 ∨ off.1 + cfg.ioBlockSize ≤ off'.1 + i := by
  have hne' : off.1 ≠ off'.1 := fun heq => hne (h.apart b b' off off' hoff hoff' heq).symm
  rcases slots_apart (h.block b off hoff).1 (h.block b' off' hoff').1 hne' with hle | hle
  · right
    omega
  · left
    omega

/-- **`get_allocate_free_offset`**. -/
lemma getAllocateFreeOffset (h : Slotted cfg pg) (b : ℤ) :
    Slotted cfg (pg.getAllocateFreeOffset cfg b).1 ∧
      Keeps cfg b pg (pg.getAllocateFreeOffset cfg b).1 := by
  rw [Page.getAllocateFreeOffset]
  cases hs : pg.freeBlockIndexes.getLast? with
  | none => exact ⟨h, .of_eq rfl rfl⟩
  | some s =>
      have hlist : pg.freeBlockIndexes = pg.freeBlockIndexes.dropLast ++ [s] :=
        (List.dropLast_append_getLast? s hs).symm
      have hmem : s ∈ pg.freeBlockIndexes := List.mem_of_getLast? hs
      have hdrop : s ∉ pg.freeBlockIndexes.dropLast := fun hin => by
        have hnd := h.nodup
        rw [hlist] at hnd
        exact (List.nodup_append.mp hnd).2.2 s hin s List.mem_cons_self rfl
      have hsub : ∀ t ∈ pg.freeBlockIndexes.dropLast, t ∈ pg.freeBlockIndexes := fun t ht =>
        List.dropLast_subset _ ht
      have hlook : ∀ b' off, (pg.allocatedBlockIds.blockOffsetMapping.insertNew b
          (s, s + cfg.ioBlockSize - 1)).lookup b' = some off →
          pg.allocatedBlockIds.blockOffsetMapping.lookup b' = some off ∨
            (b' = b ∧ off = (s, s + cfg.ioBlockSize - 1) ∧
              pg.allocatedBlockIds.blockOffsetMapping.lookup b = none) := by
        intro b' off hoff
        rw [Map.lookup_insertNew] at hoff
        split_ifs at hoff with hb'
        · cases hold : pg.allocatedBlockIds.blockOffsetMapping.lookup b with
          | none =>
              rw [hold] at hoff
              exact .inr ⟨hb', (Option.some.inj hoff).symm, rfl⟩
          | some old =>
              rw [hold] at hoff
              exact .inl (hb' ▸ hold.trans hoff)
        · exact .inl hoff
      refine ⟨⟨h.nodup.sublist (List.dropLast_sublist _), fun t ht => h.free t (hsub t ht),
        fun b' off hoff => ?_, fun b1 b2 off1 off2 h1 h2 heq => ?_⟩, fun b' hb' => ?_⟩
      · rcases hlook b' off hoff with hold | ⟨-, rfl, -⟩
        · obtain ⟨g1, g2, g3⟩ := h.block b' off hold
          exact ⟨g1, g2, fun hin => g3 (hsub _ hin)⟩
        · exact ⟨h.free s hmem, rfl, hdrop⟩
      · -- the slot taken is not the slot of a block
        rcases hlook b1 off1 h1 with g1 | ⟨rfl, rfl, -⟩
          <;> rcases hlook b2 off2 h2 with g2 | ⟨rfl, rfl, -⟩
        · exact h.apart b1 b2 off1 off2 g1 g2 heq
        · exact absurd (heq ▸ hmem) (h.block b1 off1 g1).2.2
        · exact absurd (heq ▸ hmem) (h.block b2 off2 g2).2.2
        · rfl
      · have hsame : (pg.allocatedBlockIds.blockOffsetMapping.insertNew b
            (s, s + cfg.ioBlockSize - 1)).lookup b'
              = pg.allocatedBlockIds.blockOffsetMapping.lookup b' :=
          Map.lookup_insertNew_ne _ _ hb'
        refine ⟨?_, fun _ => ?_⟩
        · simp only [containsBlock, BlockOffsets.containsBlock,
            BlockOffsets.insertOrUpdateBlockOffsets, hsame]
        · simp only [blockBytes, getBlockOffsets, BlockOffsets.getBlockOffsets,
            BlockOffsets.insertOrUpdateBlockOffsets, hsame]

/-- **`update_block_data`** with a whole block. -/
lemma updateBlockData (h : Slotted cfg pg) (b : ℤ) (data : Mem) :
    Slotted cfg (pg.updateBlockData b data cfg.ioBlockSize 0).1 ∧
      Keeps cfg b pg (pg.updateBlockData b data cfg.ioBlockSize 0).1 := by
  rw [Page.updateBlockData]
  split_ifs with hoffs
  · refine ⟨h.congr rfl rfl, fun b' hb' => ⟨rfl, fun hc => ?_⟩⟩
    obtain ⟨off', hoff'⟩ := containsBlock_iff.mp hc
    cases hoff : pg.allocatedBlockIds.blockOffsetMapping.lookup b with
    | none =>
        rw [getBlockOffsets, BlockOffsets.getBlockOffsets, hoff] at hoffs
        exact absurd hoffs.1 (by decide)
    | some off =>
        have hb : pg.getBlockOffsets b = off := getBlockOffsets_of_lookup hoff
        have hb' : pg.getBlockOffsets b' = off' := getBlockOffsets_of_lookup hoff'
        show (Page.data _).read (pg.getBlockOffsets b').1 _ = _
        rw [blockBytes, hb', Mem.read_eq_iff]
        intro i hi
        rw [rewriteOffsetData, hb]
        have hout := h.outside ‹_› hoff hoff' hi
        exact memcpy_of_not_mem _ _ _ _ _ (by omega)
  · exact ⟨h, .of_eq rfl rfl⟩

/-- The bytes of a block that was updated. -/
lemma blockBytes_updateBlockData (h : Slotted cfg pg) {off : ℤ × ℤ} (data : Mem)
    (hoff : pg.allocatedBlockIds.blockOffsetMapping.lookup b = some off) (hpos : 0 < off.2) :
    (pg.updateBlockData b data cfg.ioBlockSize 0).1.blockBytes cfg b
      = data.read 0 cfg.ioBlockSize := by
  have hb : pg.getBlockOffsets b = off := getBlockOffsets_of_lookup hoff
  have hnn : 0 ≤ off.1 := by
    obtain ⟨j, -, hj⟩ := List.mem_map.mp (h.block b off hoff).1
    rw [← hj]
    positivity
  rw [Page.updateBlockData, hb, if_pos ⟨hnn, hpos⟩]
  show (Page.data _).read (pg.getBlockOffsets b).1 _ = _
  rw [rewriteOffsetData, hb, add_zero]
  have hlen : off.1 + (cfg.ioBlockSize : ℤ) - 1 - off.1 + 1 = cfg.ioBlockSize := by ring
  rw [hlen]
  exact read_memcpy_self _ _ _ _ _

/-- **`remove_block`**. -/
lemma removeBlock (h : Slotted cfg pg) (b : ℤ) : Keeps cfg b pg (pg.removeBlock cfg b) := by
  have hclean : ∀ pg1 : Page, Keeps cfg b pg1
      (if pg1.allocatedBlockIds.isEmpty then pg1.setPageAsDirty false else pg1) := by
    intro pg1
    split_ifs
    · exact .of_eq rfl rfl
    · exact .of_eq rfl rfl
  rw [Page.removeBlock]
  refine Keeps.trans ?_ (hclean _)
  split_ifs with hc
  · obtain ⟨off, hoff⟩ := containsBlock_iff.mp hc
    have hb : pg.getBlockOffsets b = off := getBlockOffsets_of_lookup hoff
    intro b' hne
    have hsame : (pg.allocatedBlockIds.blockOffsetMapping.erase b).lookup b'
        = pg.allocatedBlockIds.blockOffsetMapping.lookup b' := AList.lookup_erase_ne hne
    refine ⟨?_, fun hc' => ?_⟩
    · simp only [containsBlock, BlockOffsets.containsBlock, BlockOffsets.removeBlock, hsame]
    · obtain ⟨off', hoff'⟩ := containsBlock_iff.mp hc'
      have hb' : pg.getBlockOffsets b' = off' := getBlockOffsets_of_lookup hoff'
      have hkept : Page.getBlockOffsets { pg with
          freeBlockIndexes := pg.freeBlockIndexes ++ [(pg.getBlockOffsets b).1]
          data := memset pg.data (pg.getBlockOffsets b).1 0 cfg.ioBlockSize
          allocatedBlockIds := pg.allocatedBlockIds.removeBlock b } b' = off' :=
        getBlockOffsets_of_lookup (hsame.trans hoff')
      rw [blockBytes, blockBytes, hkept, hb, hb', Mem.read_eq_iff]
      exact fun i hi => memset_of_not_mem _ _ _ _ (h.outside hne hoff hoff' hi)
  · exact .of_eq rfl rfl

/-- A block with a slot that does not end at byte `0` takes the bytes. -/
lemma has_updateBlockData (h : Slotted cfg pg) (hB : 2 ≤ cfg.ioBlockSize) (data : Mem)
    (hc : pg.containsBlock b = true) :
    (pg.updateBlockData b data cfg.ioBlockSize 0).1.containsBlock b = true ∧
      (pg.updateBlockData b data cfg.ioBlockSize 0).1.blockBytes cfg b
        = data.read 0 cfg.ioBlockSize := by
  obtain ⟨off, hoff⟩ := containsBlock_iff.mp hc
  obtain ⟨hslot, hend, -⟩ := h.block b off hoff
  have hnn : 0 ≤ off.1 := by
    obtain ⟨j, -, hj⟩ := List.mem_map.mp hslot
    rw [← hj]
    positivity
  refine ⟨?_, h.blockBytes_updateBlockData data hoff (by omega)⟩
  rw [Page.updateBlockData]
  split_ifs
  · exact hc
  · exact hc

end Slotted

/-- The page after a whole block was put in it: the slot taken, if there is one, and the bytes
written. -/
def put (cfg : Config) (pg : Page) (b : ℤ) (data : Mem) : Page :=
  ((pg.getAllocateFreeOffset cfg b).1.updateBlockData b data cfg.ioBlockSize 0).1

/-- A block put in a page with a free slot is in it. -/
lemma Slotted.has_put (h : Slotted cfg pg) (hB : 2 ≤ cfg.ioBlockSize) (data : Mem)
    (hne : pg.freeBlockIndexes ≠ []) :
    (pg.put cfg b data).containsBlock b = true ∧
      (pg.put cfg b data).blockBytes cfg b = data.read 0 cfg.ioBlockSize := by
  refine (h.getAllocateFreeOffset b).1.has_updateBlockData hB data ?_
  rw [Page.getAllocateFreeOffset, List.getLast?_eq_some_getLast hne]
  simp only [containsBlock, BlockOffsets.containsBlock, BlockOffsets.insertOrUpdateBlockOffsets,
    Map.lookup_insertNew, if_true]
  cases pg.allocatedBlockIds.blockOffsetMapping.lookup b with
  | none => rfl
  | some off => rfl

@[simp] lemma pageOwnerId_updateBlockData {data : Mem} {len : ℕ} {start : ℤ} :
    (pg.updateBlockData b data len start).1.pageOwnerId = pg.pageOwnerId := by
  unfold updateBlockData
  dsimp only
  split_ifs <;> rfl

@[simp] lemma freeBlockIndexes_updateBlockData {data : Mem} {len : ℕ} {start : ℤ} :
    (pg.updateBlockData b data len start).1.freeBlockIndexes = pg.freeBlockIndexes := by
  unfold updateBlockData
  dsimp only
  split_ifs <;> rfl

@[simp] lemma getBlockOffsets_updateBlockData {data : Mem} {len : ℕ} {start b' : ℤ} :
    (pg.updateBlockData b data len start).1.getBlockOffsets b' = pg.getBlockOffsets b' := by
  unfold updateBlockData
  dsimp only
  split_ifs <;> rfl

/-- The same slots and bytes; the flag and the label may differ. -/
structure SameSlots (pg pg' : Page) : Prop where
  slots : pg'.freeBlockIndexes = pg.freeBlockIndexes
  blocks : pg'.allocatedBlockIds = pg.allocatedBlockIds
  data : pg'.data = pg.data

lemma Slotted.put (h : Slotted cfg pg) (b : ℤ) (data : Mem) :
    Slotted cfg (pg.put cfg b data) ∧ Keeps cfg b pg (pg.put cfg b data) := by
  obtain ⟨h1, hk1⟩ := h.getAllocateFreeOffset b
  obtain ⟨h2, hk2⟩ := h1.updateBlockData b data
  exact ⟨h2, hk1.trans hk2⟩

end Page

namespace Engine

variable {e e' : Engine} {o : String} {p : ℕ} {b : ℤ} {bd : BlockData} {op : AllocateOperationType}

/-- The pages are slotted, the free ones are empty, and a page with room of an owner is its own. -/
structure SlotsOk (cfg : Config) (e : Engine) : Prop where
  pages : ∀ p, (e.searchIndex p).Slotted cfg
  nodup : e.freePages.Nodup
  free : ∀ p ∈ e.freePages, p < cfg.cacheNrPages ∧
    (e.searchIndex p).freeBlockIndexes = Page.slots cfg ∧
    (e.searchIndex p).allocatedBlockIds = .empty
  rooms : ∀ o v, e.ownerFreePagesMapping.lookup o = some v → ∀ p ∈ v,
    p < cfg.cacheNrPages ∧ (e.searchIndex p).pageOwnerId = o ∧ p ∉ e.freePages

/-- The pages with room after a block of `o` went into the page `p`, which is left with room or
not. -/
def RoomsAfter (o : String) (p : ℕ) (room : Bool) (e e' : Engine) : Prop :=
  ∀ o' v, e'.ownerFreePagesMapping.lookup o' = some v →
    ∃ v0, (e.ownerFreePagesMapping.lookup o' = some v0 ∨ v0 = []) ∧
      (v = v0 ∨ (o' = o ∧ room = true ∧ v = v0 ++ [p]))

lemma pages_dropRealOwner (h : e.dropRealOwner o p b = some e') :
    e'.freePages = e.freePages ∧ e'.searchIndex = e.searchIndex ∧
      ∀ o' v, e'.ownerFreePagesMapping.lookup o' = some v →
      e.ownerFreePagesMapping.lookup o' = some v := by
  rw [dropRealOwner] at h
  split at h
  · cases h
    exact ⟨rfl, rfl, fun _ _ hv => hv⟩
  · obtain ⟨m, -, h⟩ := Option.bind_eq_some_iff.mp h
    dsimp only at h
    split_ifs at h
    · cases h
      refine ⟨rfl, rfl, fun o' v hv => ?_⟩
      simp only [Map.lookup_erase'] at hv
      split_ifs at hv
      exact hv
    · cases h
      exact ⟨rfl, rfl, fun _ _ hv => hv⟩

lemma pages_enterNewOwner {offs : ℤ × ℤ} (h : e.enterNewOwner o p b offs = some e') :
    e'.freePages = e.freePages ∧ e'.searchIndex = e.searchIndex ∧
      RoomsAfter o p (e.searchIndex p).hasFreeSpace e e' := by
  -- the end of the function enters the page when it has room
  have htail : ∀ e1 : Engine, (if (e1.searchIndex p).hasFreeSpace then do
        let v ← e1.ownerFreePagesMapping.lookup o
        some { e1 with ownerFreePagesMapping := e1.ownerFreePagesMapping.set o (v ++ [p]) }
        else some e1) = some e' →
      e1.freePages = e.freePages → e1.searchIndex = e.searchIndex →
      (∀ o' v, e1.ownerFreePagesMapping.lookup o' = some v →
        e.ownerFreePagesMapping.lookup o' = some v ∨ v = []) →
      e'.freePages = e.freePages ∧ e'.searchIndex = e.searchIndex ∧
        RoomsAfter o p (e.searchIndex p).hasFreeSpace e e' := by
    intro e1 h1 hf hs hr
    split_ifs at h1 with hroom
    · obtain ⟨v1, hv1, h1⟩ := Option.bind_eq_some_iff.mp h1
      cases h1
      refine ⟨hf, hs, fun o' v hv => ?_⟩
      simp only [Map.lookup_set] at hv
      split_ifs at hv with ho
      · refine ⟨v1, hr o v1 hv1 |>.imp_left fun hv0 => ho ▸ hv0, .inr ⟨ho, hs ▸ hroom, ?_⟩⟩
        exact (Option.some.inj hv).symm
      · exact ⟨v, hr o' v hv, .inl rfl⟩
    · cases h1
      exact ⟨hf, hs, fun o' v hv => ⟨v, hr o' v hv, .inl rfl⟩⟩
  rw [enterNewOwner] at h
  dsimp only at h
  cases hs : e.ownerPagesMapping.lookup o with
  | none =>
      simp only [hs] at h
      refine htail _ h rfl rfl fun o' v hv => ?_
      simp only [Map.lookup_insertNew] at hv
      split_ifs at hv with ho
      · subst ho
        cases hold : e.ownerFreePagesMapping.lookup o' with
        | none =>
            rw [hold] at hv
            exact .inr (Option.some.inj hv).symm
        | some v1 =>
            rw [hold] at hv
            exact .inl hv
      · exact .inl hv
  | some s =>
      simp only [hs] at h
      obtain ⟨m, -, h⟩ := Option.bind_eq_some_iff.mp h
      exact htail _ h rfl rfl fun o' v hv => .inl hv

/-- `_update_owner_pages` relabels the page and may enter it among the pages with room. -/
lemma pages_updateOwnerPages {offs : ℤ × ℤ} (hlt : p < cfg.cacheNrPages)
    (h : e.updateOwnerPages cfg o p b offs = some e') :
    e'.freePages = e.freePages ∧
      e'.searchIndex = Function.update e.searchIndex p ((e.searchIndex p).changeOwner o) ∧
      RoomsAfter o p (e.searchIndex p).hasFreeSpace e e' := by
  rw [updateOwnerPages, getPagePtr] at h
  rw [if_pos hlt] at h
  dsimp only at h
  split_ifs at h with hsame
  · obtain ⟨hf, hs, hr⟩ := pages_enterNewOwner h
    refine ⟨hf, hs.trans ?_, hr⟩
    rw [Page.changeOwner, ← hsame]
    exact (Function.update_eq_self p e.searchIndex).symm
  · obtain ⟨e1, h1, h⟩ := Option.bind_eq_some_iff.mp h
    obtain ⟨hf1, hs1, hr1⟩ := pages_dropRealOwner h1
    obtain ⟨hf, hs, hr⟩ := pages_enterNewOwner h
    refine ⟨hf.trans hf1, hs.trans hs1, fun o' v hv => ?_⟩
    obtain ⟨v0, hv0, hv⟩ := hr o' v hv
    refine ⟨v0, hv0.imp_left (hr1 o' v0), ?_⟩
    rw [hs1, searchIndex_setPage_self] at hv
    exact hv

/-- A whole block of `o` was stored in the page `p`: it was there, or `p` was a page of `o` with
room, or `p` was free. -/
structure StoresIn (cfg : Config) (o : String) (b : ℤ) (data : Mem) (e e' : Engine)
    (p : ℕ) : Prop where
  lt : p < cfg.cacheNrPages
  others : ∀ q, q ≠ p → e'.searchIndex q = e.searchIndex q
  owner : (e'.searchIndex p).pageOwnerId = o
  notFree : p ∉ e'.freePages
  free : e'.freePages.Sublist e.freePages
  rooms : RoomsAfter o p (e'.searchIndex p).hasFreeSpace e e'
  page : ((e.searchIndex p).pageOwnerId = o ∧ (e.searchIndex p).containsBlock b = true ∧
      Page.SameSlots ((e.searchIndex p).updateBlockData b data cfg.ioBlockSize 0).1
        (e'.searchIndex p)) ∨
    (((∃ v, e.ownerFreePagesMapping.lookup o = some v ∧ p ∈ v) ∨ p ∈ e.freePages) ∧
      Page.SameSlots ((e.searchIndex p).put cfg b data) (e'.searchIndex p))

/-- The block is stored in the page handed out. -/
lemma pages_storeBlock (hoff : cfg.applyLruEviction = false) (hlt : p < cfg.cacheNrPages)
    (hlen : bd.len = cfg.ioBlockSize) (hstart : bd.offStart = 0)
    (h : e.storeBlock cfg o b p bd op = some e') :
    e'.freePages = e.freePages ∧ (∀ q, q ≠ p → e'.searchIndex q = e.searchIndex q) ∧
      (e'.searchIndex p).pageOwnerId = o ∧
      Page.SameSlots ((e.searchIndex p).put cfg b bd.data) (e'.searchIndex p) ∧
      RoomsAfter o p (e'.searchIndex p).hasFreeSpace e e' := by
  rw [storeBlock] at h
  dsimp only at h
  rw [hoff, if_neg Bool.false_ne_true, hlen, hstart] at h
  obtain ⟨hf, hs, hr⟩ := pages_updateOwnerPages hlt h
  rw [searchIndex_setPage_self] at hs hr
  have hself : e'.searchIndex p = _ := (congrFun hs p).trans (Function.update_self ..)
  refine ⟨hf, fun q hq => ?_, ?_, ?_, ?_⟩
  · rw [hs, Function.update_of_ne hq, searchIndex_setPage_ne _ _ hq]
  · rw [hself]
    rfl
  · rw [hself]
    split_ifs
    · exact ⟨rfl, rfl, rfl⟩
    · exact ⟨rfl, rfl, rfl⟩
  · rw [hself]
    exact hr

namespace SlotsOk

/-- What is kept when a block is stored. -/
lemma of_storesIn {data : Mem} (hS : e.SlotsOk cfg) (h : StoresIn cfg o b data e e' p) :
    e'.SlotsOk cfg where
  pages := fun q => by
    by_cases hq : q = p
    · subst hq
      rcases h.page with ⟨-, -, hsame⟩ | ⟨-, hsame⟩
      · exact ((hS.pages q).updateBlockData b data).1.congr hsame.slots hsame.blocks
      · exact ((hS.pages q).put b data).1.congr hsame.slots hsame.blocks
    · rw [h.others q hq]
      exact hS.pages q
  nodup := hS.nodup.sublist h.free
  free := fun q hq => by
    rw [h.others q fun heq => h.notFree (heq ▸ hq)]
    exact hS.free q (h.free.subset hq)
  rooms := fun o' v hv q hq => by
    obtain ⟨v0, hv0, hv⟩ := h.rooms o' v hv
    have hold : q ∈ v0 → q < cfg.cacheNrPages ∧ (e'.searchIndex q).pageOwnerId = o' ∧
        q ∉ e'.freePages := by
      intro hq0
      rcases hv0 with hv0 | rfl
      · obtain ⟨g1, g2, g3⟩ := hS.rooms o' v0 hv0 q hq0
        refine ⟨g1, ?_, fun hin => g3 (h.free.subset hin)⟩
        by_cases hqp : q = p
        · -- the page was the owner's own
          subst hqp
          rw [h.owner]
          rcases h.page with ⟨hown, -, -⟩ | ⟨⟨v1, hv1, hmem⟩ | hfree, -⟩
          · exact hown.symm.trans g2
          · exact (hS.rooms o v1 hv1 q hmem).2.1.symm.trans g2
          · exact absurd hfree g3
        · rw [h.others q hqp]
          exact g2
      · cases hq0
    rcases hv with rfl | ⟨rfl, -, rfl⟩
    · exact hold hq
    · rcases List.mem_append.mp hq with hq0 | hqp
      · exact hold hq0
      · rw [List.mem_singleton.mp hqp]
        exact ⟨h.lt, h.owner, h.notFree⟩

/-- **One turn of `allocate_blocks`** with a whole block and without eviction. -/
theorem allocateBlock {d d' : Disk} {r : Option ℕ} (hoff : cfg.applyLruEviction = false)
    (hS : e.SlotsOk cfg) (hlen : bd.len = cfg.ioBlockSize) (hstart : bd.offStart = 0)
    (h : e.allocateBlock cfg d o b bd op = some (e', d', r)) :
    (r = none ∧ e' = e) ∨ ∃ p, r = some p ∧ StoresIn cfg o b bd.data e e' p := by
  have hfree : e.allocateFree cfg d o b bd op = some (e', d', r) →
      (r = none ∧ e' = e) ∨ ∃ p, r = some p ∧ StoresIn cfg o b bd.data e e' p := by
    intro h
    obtain ⟨⟨e1, d1, next⟩, h1, h⟩ := Option.bind_eq_some_iff.mp h
    obtain ⟨room, hroom, h1⟩ := Option.bind_eq_some_iff.mp h1
    cases room with
    | some p =>
        cases h1
        -- a page of the owner with room
        have hv : ∃ v, e.ownerFreePagesMapping.lookup o = some v ∧ p ∈ v := by
          rw [pageWithRoom] at hroom
          split_ifs at hroom
          · obtain ⟨v, hv, hlast⟩ := Option.map_eq_some_iff.mp hroom
            exact ⟨v, hv, List.mem_of_getLast? hlast⟩
          · cases hroom
        obtain ⟨v, hv, hmem⟩ := hv
        obtain ⟨hlt, hown, hnf⟩ := hS.rooms o v hv p hmem
        dsimp only at h
        rw [if_pos hlt] at h
        obtain ⟨e2, h2, h⟩ := Option.bind_eq_some_iff.mp h
        cases h
        obtain ⟨hf, hoth, howner, hsame, hr⟩ := pages_storeBlock hoff hlt hlen hstart h2
        exact .inr ⟨p, rfl, hlt, hoth, howner, hf ▸ hnf, hf ▸ .refl _, hr,
          .inr ⟨.inl ⟨v, hv, hmem⟩, hsame⟩⟩
    | none =>
        dsimp only at h1
        cases hlast : e.freePages.getLast? with
        | none =>
            rw [hlast, hoff] at h1
            cases h1
            cases h
            exact .inl ⟨rfl, rfl⟩
        | some p =>
            rw [hlast] at h1
            cases h1
            -- the last free page
            have hmem : p ∈ e.freePages := List.mem_of_getLast? hlast
            have hlt := (hS.free p hmem).1
            dsimp only at h
            rw [if_pos hlt] at h
            obtain ⟨e2, h2, h⟩ := Option.bind_eq_some_iff.mp h
            cases h
            obtain ⟨hf, hoth, howner, hsame, hr⟩ := pages_storeBlock hoff hlt hlen hstart h2
            refine .inr ⟨p, rfl, hlt, hoth, howner, fun hin => ?_, hf ▸ List.dropLast_sublist _, hr,
              .inr ⟨.inr hmem, hsame⟩⟩
            rw [hf] at hin
            have hnd := hS.nodup
            rw [(List.dropLast_append_getLast? p hlast).symm] at hnd
            exact (List.nodup_append.mp hnd).2.2 p hin p List.mem_cons_self rfl
  rw [Engine.allocateBlock] at h
  split at h
  · rename_i p hp
    split_ifs at h with hc
    · obtain ⟨e1, h1, h⟩ := Option.map_eq_some_iff.mp h
      cases h
      rw [Engine.updateBlock] at h1
      obtain ⟨m, -, h1⟩ := Option.bind_eq_some_iff.mp h1
      obtain ⟨ent, -, h1⟩ := Option.bind_eq_some_iff.mp h1
      cases h1
      unfold isBlockCached getPagePtr at hc
      rw [Option.bind_some] at hc
      split_ifs at hc with hlt
      rw [Bool.and_eq_true, Page.isPageOwner, decide_eq_true_eq] at hc
      have hnf : p ∉ e.freePages := fun hin => by
        rw [Page.containsBlock, (hS.free p hin).2.2] at hc
        cases hc.2
      have hself : ((e.setPage p ((e.searchIndex p).updateBlockData b bd.data bd.len
          bd.offStart).1).searchIndex p)
          = ((e.searchIndex p).updateBlockData b bd.data cfg.ioBlockSize 0).1 := by
        rw [searchIndex_setPage_self, hlen, hstart]
      refine .inr ⟨p, rfl, hlt, fun q hq => searchIndex_setPage_ne _ _ hq, ?_, hnf, .refl _,
        fun o' v hv => ⟨v, .inl hv, .inl rfl⟩, .inl ⟨hc.1, hc.2, ?_⟩⟩
      · exact (congrArg Page.pageOwnerId hself).trans (Page.pageOwnerId_updateBlockData.trans hc.1)
      · exact hself ▸ ⟨rfl, rfl, rfl⟩
    · exact hfree h
  · exact hfree h

/-- **The rule for `allocate_blocks`** with whole blocks and without eviction: what every turn of
the loop keeps is kept by the call. -/
theorem allocateBlocks {P : Engine → Map ℤ (Option ℕ) → Prop} (hoff : cfg.applyLruEviction = false)
    {blocks : Map ℤ BlockData}
    (hfull : ∀ b bd, blocks.lookup b = some bd → bd.len = cfg.ioBlockSize ∧ bd.offStart = 0)
    (hstep : ∀ e e' res b bd r, blocks.lookup b = some bd → res.lookup b = none → e.SlotsOk cfg →
      ((r = none ∧ e' = e) ∨ ∃ p, r = some p ∧ StoresIn cfg o b bd.data e e' p) → P e res →
      P e' (res.insertNew b r))
    {d d' : Disk} {res : Map ℤ (Option ℕ)} (hS : e.SlotsOk cfg) (h0 : P e ∅)
    (h : e.allocateBlocks cfg d o blocks op = some (e', d', res)) : e'.SlotsOk cfg ∧ P e' res := by
  have hloop : ∀ (l : List (ℤ × BlockData)), (l.map Prod.fst).Nodup →
      (∀ x ∈ l, blocks.lookup x.1 = some x.2) → ∀ (e : Engine) (d : Disk) (res0 : Map ℤ (Option ℕ)),
      (∀ x ∈ l, res0.lookup x.1 = none) → e.SlotsOk cfg → P e res0 →
      allocateLoop cfg o op l e d res0 = some (e', d', res) → e'.SlotsOk cfg ∧ P e' res := by
    intro l
    induction l with
    | nil =>
        intro _ _ e d res0 _ hS hP h
        cases h
        exact ⟨hS, hP⟩
    | cons x l ih =>
        intro hnd hmem e d res0 hres hS hP h
        rw [List.map_cons, List.nodup_cons] at hnd
        obtain ⟨⟨e1, d1, r⟩, h1, h⟩ := Option.bind_eq_some_iff.mp h
        have hx := hmem x List.mem_cons_self
        have hturn := hS.allocateBlock hoff (hfull _ _ hx).1 (hfull _ _ hx).2 h1
        have hS1 : e1.SlotsOk cfg := by
          rcases hturn with ⟨-, rfl⟩ | ⟨p, -, hp⟩
          · exact hS
          · exact hS.of_storesIn hp
        refine ih hnd.2 (fun y hy => hmem y (List.mem_cons_of_mem _ hy))
          e1 d1 _ (fun y hy => ?_) hS1
          (hstep e e1 res0 x.1 x.2 r hx (hres x List.mem_cons_self) hS hturn hP) h
        have hne : y.1 ≠ x.1 := fun heq => hnd.1 (heq ▸ List.mem_map_of_mem hy)
        rw [Map.lookup_insertNew_ne _ _ hne]
        exact hres y (List.mem_cons_of_mem _ hy)
  exact hloop blocks.sorted (Map.nodup_map_fst_sorted blocks) (fun x hx =>
    Map.mem_sorted.mp hx) e d ∅
    (fun _ _ => AList.lookup_empty _) hS h0 h

/-- The engine starts slotted. -/
lemma new (h : 0 < cfg.ioBlockSize) : (Engine.new cfg).SlotsOk cfg where
  pages := fun _ => Page.slotted_of_empty h rfl rfl
  nodup := List.nodup_range
  free := fun _ hp => ⟨List.mem_range.mp hp, rfl, rfl⟩
  rooms := fun o v hv => by
    rw [Engine.new, AList.lookup_empty] at hv
    cases hv

end SlotsOk

/-- The page `p` of `w` has the block `b` with these bytes. -/
def Has (cfg : Config) (p : ℕ) (w : String) (b : ℤ) (bytes : List UInt8) (e : Engine) : Prop :=
  (e.searchIndex p).pageOwnerId = w ∧ (e.searchIndex p).containsBlock b = true ∧
    (e.searchIndex p).blockBytes cfg b = bytes

lemma SameSlots.has (cfg : Config) {pg pg' : Page} (h : Page.SameSlots pg pg') (b : ℤ) :
    pg'.containsBlock b = pg.containsBlock b ∧ pg'.blockBytes cfg b = pg.blockBytes cfg b := by
  refine ⟨by rw [Page.containsBlock, Page.containsBlock, h.blocks], ?_⟩
  rw [Page.blockBytes, Page.blockBytes, Page.getBlockOffsets, Page.getBlockOffsets,
    h.blocks, h.data]

/-- **A block stored leaves every other block as it is**, in its page and in the others. -/
theorem StoresIn.keeps {data : Mem} (h : StoresIn cfg o b data e e' p) (hS : e.SlotsOk cfg) {q : ℕ}
    {w : String} {b' : ℤ} {bytes : List UInt8} (hhas : e.Has cfg q w b' bytes)
    (hne : ¬ (w = o ∧ b' = b)) : e'.Has cfg q w b' bytes := by
  obtain ⟨hown, hcon, hbytes⟩ := hhas
  by_cases hq : q = p
  · subst hq
    -- the page is the owner's, since a free one has no block
    have hwo : w = o := by
      rcases h.page with ⟨g, -, -⟩ | ⟨⟨v, hv, hmem⟩ | hfree, -⟩
      · exact hown.symm.trans g
      · exact hown.symm.trans (hS.rooms o v hv q hmem).2.1
      · rw [Page.containsBlock, (hS.free q hfree).2.2] at hcon
        cases hcon
    have hkeep : ∀ pg, Page.Keeps cfg b (e.searchIndex q) pg →
        Page.SameSlots pg (e'.searchIndex q) →
        e'.Has cfg q w b' bytes := by
      intro pg hk hsame
      obtain ⟨g1, g2⟩ := hk b' fun heq => hne ⟨hwo, heq⟩
      obtain ⟨k1, k2⟩ := SameSlots.has cfg hsame b'
      exact ⟨h.owner.trans hwo.symm, (k1.trans g1).trans hcon, (k2.trans (g2 hcon)).trans hbytes⟩
    rcases h.page with ⟨-, -, hsame⟩ | ⟨-, hsame⟩
    · exact hkeep _ ((hS.pages q).updateBlockData b data).2 hsame
    · exact hkeep _ ((hS.pages q).put b data).2 hsame
  · rw [Has, h.others q hq]
    exact ⟨hown, hcon, hbytes⟩

/-- Without pages with room, the block is in the page that was reported for it. -/
theorem StoresIn.stored {data : Mem} (h : StoresIn cfg o b data e e' p) (hS : e.SlotsOk cfg)
    (hB : 2 ≤ cfg.ioBlockSize) (hslots : Page.slots cfg ≠ [])
    (hroom : ∀ o v, e.ownerFreePagesMapping.lookup o = some v → v = []) :
    e'.Has cfg p o b (data.read 0 cfg.ioBlockSize) := by
  refine ⟨h.owner, ?_⟩
  rcases h.page with ⟨-, hc, hsame⟩ | ⟨⟨v, hv, hmem⟩ | hfree, hsame⟩
  · obtain ⟨g1, g2⟩ := (hS.pages p).has_updateBlockData hB data hc
    obtain ⟨k1, k2⟩ := SameSlots.has cfg hsame b
    exact ⟨k1.trans g1, k2.trans g2⟩
  · rw [hroom o v hv] at hmem
    cases hmem
  · obtain ⟨g1, g2⟩ := (hS.pages p).has_put (b := b) hB data ((hS.free p hfree).2.1 ▸ hslots)
    obtain ⟨k1, k2⟩ := SameSlots.has cfg hsame b
    exact ⟨k1.trans g1, k2.trans g2⟩

/-- A page of one slot is full after a block, so that no owner gets a page with room. -/
lemma StoresIn.noRoom {data : Mem} (h : StoresIn cfg o b data e e' p) (hS : e.SlotsOk cfg)
    (hB : 2 ≤ cfg.ioBlockSize) (hslots : Page.slots cfg = [0])
    (hroom : ∀ o v, e.ownerFreePagesMapping.lookup o = some v → v = []) :
    ∀ o v, e'.ownerFreePagesMapping.lookup o = some v → v = [] := by
  have hS' := hS.of_storesIn h
  obtain ⟨-, hc, -⟩ := h.stored hS hB (by simp [hslots]) hroom
  -- the block has the only slot
  have hfull : (e'.searchIndex p).freeBlockIndexes = [] := by
    obtain ⟨off, hoff⟩ := Page.containsBlock_iff.mp hc
    obtain ⟨hslot, -, hnf⟩ := (hS'.pages p).block b off hoff
    rw [hslots, List.mem_singleton] at hslot
    refine List.eq_nil_iff_forall_not_mem.mpr fun s hs => hnf ?_
    have hs0 := (hS'.pages p).free s hs
    rw [hslots, List.mem_singleton] at hs0
    rw [hslot, ← hs0]
    exact hs
  intro o' v hv
  obtain ⟨v0, hv0, hv⟩ := h.rooms o' v hv
  have hv0' : v0 = [] := hv0.elim (hroom o' v0) id
  rcases hv with rfl | ⟨-, hfs, -⟩
  · exact hv0'
  · rw [Page.hasFreeSpace, hfull] at hfs
    cases hfs

end Engine

end LazyFS
