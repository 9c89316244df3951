import LazyFS.Rep.Lru
import LazyFS.Rep.Items
import LazyFS.Rep.Sync

/-!
What holds of the cache after every call, with eviction on or off.

* `Cache.Tidy cfg c tbl`: the pages are as the table says and the LRU list holds pages in use; every
  owner of the engine has an item, every item a lock, and content ids are inode numbers.  The
  entries of the engine and the block infos may be out of date: an eviction does not tell the item.
* `Tidy.putDataBlocks` to `Tidy.removeCachedItem`: the operations keep it.
-/

namespace LazyFS

open Engine

variable {cfg : Config}

/-! ### Owners -/

namespace Engine

variable {e e' : Engine} {tbl : PageTable} {d d' : Disk} {cid : String}

/-- The owners of an engine are those of another one, and `cid`. -/
def OwnersIn (cid : String) (e e' : Engine) : Prop :=
  ∀ o, (e'.ownerPagesMapping.lookup o).isSome → o = cid ∨ (e.ownerPagesMapping.lookup o).isSome

lemma OwnersIn.refl (e : Engine) : OwnersIn cid e e := fun _ ho => .inr ho

lemma OwnersIn.trans {e'' : Engine} (h : OwnersIn cid e e') (h' : OwnersIn cid e' e'') :
    OwnersIn cid e e'' := fun o ho => (h' o ho).elim .inl (h o)

lemma OwnersIn.of_eq (h : e'.ownerPagesMapping = e.ownerPagesMapping) : OwnersIn cid e e' :=
  fun _ ho => .inr (h ▸ ho)

lemma ownersIn_dropRealOwner {o : String} {p : ℕ} {blk : ℤ}
    (h : e.dropRealOwner o p blk = some e') :
    OwnersIn cid e e' := by
  rw [dropRealOwner] at h
  split at h
  · cases h
    exact .refl e
  · obtain ⟨m, -, h⟩ := Option.bind_eq_some_iff.mp h
    dsimp only at h
    split_ifs at h
    · cases h
      intro o' ho'
      simp only [Map.lookup_erase'] at ho'
      split_ifs at ho'
      · cases ho'
      · exact .inr ho'
    · cases h
      intro o' ho'
      simp only [Map.lookup_set] at ho'
      split_ifs at ho' with heq
      · rename_i hs _
        rw [heq, hs]
        exact .inr rfl
      · exact .inr ho'

lemma ownersIn_enterNewOwner {p : ℕ} {blk : ℤ} {offs : ℤ × ℤ}
    (h : e.enterNewOwner cid p blk offs = some e') : OwnersIn cid e e' := by
  -- the end of the function does not change the owners
  have htail : ∀ e1 : Engine, (if (e1.searchIndex p).hasFreeSpace then do
      let v ← e1.ownerFreePagesMapping.lookup cid
      some { e1 with ownerFreePagesMapping := e1.ownerFreePagesMapping.set cid (v ++ [p]) }
      else some e1) = some e' → OwnersIn cid e1 e' := by
    intro e1 h1
    split_ifs at h1
    · obtain ⟨v, -, h1⟩ := Option.bind_eq_some_iff.mp h1
      cases h1
      exact .of_eq rfl
    · cases h1
      exact .refl _
  rw [enterNewOwner] at h
  dsimp only at h
  cases hs : e.ownerPagesMapping.lookup cid with
  | none =>
      simp only [hs] at h
      refine OwnersIn.trans (fun o ho => ?_) (htail _ h)
      simp only [Map.lookup_insertNew] at ho
      split_ifs at ho with heq
      · exact .inl heq
      · exact .inr ho
  | some s =>
      simp only [hs] at h
      obtain ⟨m, -, h⟩ := Option.bind_eq_some_iff.mp h
      refine OwnersIn.trans (fun o ho => ?_) (htail _ h)
      simp only [Map.lookup_set] at ho
      split_ifs at ho with heq
      · exact .inl heq
      · exact .inr ho

lemma ownersIn_updateOwnerPages {p : ℕ} {blk : ℤ} {offs : ℤ × ℤ}
    (h : e.updateOwnerPages cfg cid p blk offs = some e') : OwnersIn cid e e' := by
  rw [updateOwnerPages] at h
  split at h
  · cases h
    exact .refl _
  · dsimp only at h
    split_ifs at h
    · exact ownersIn_enterNewOwner h
    · obtain ⟨e1, h1, h⟩ := Option.bind_eq_some_iff.mp h
      have hdrop : OwnersIn cid (e.setPage p _) e1 := ownersIn_dropRealOwner h1
      exact OwnersIn.trans (show OwnersIn cid e e1 from hdrop) (ownersIn_enterNewOwner h)

lemma ownersIn_storeBlock {p : ℕ} {blk : ℤ} {b : BlockData} {op : AllocateOperationType}
    (h : e.storeBlock cfg cid blk p b op = some e') : OwnersIn cid e e' := by
  rw [storeBlock] at h
  dsimp only at h
  refine OwnersIn.trans (OwnersIn.of_eq ?_) (ownersIn_updateOwnerPages h)
  by_cases hl : cfg.applyLruEviction = true
  · rw [if_pos hl]
    exact (sameStore_applyLruOnWrite cfg (e.setPage p _) p).ownerPagesMapping
  · rw [if_neg hl]
    rfl

/-- One turn of the loop of `allocate_blocks`, with an eviction or without. -/
lemma ownersIn_allocateBlock {blk : ℤ} {b : BlockData} {op : AllocateOperationType} {r : Option ℕ}
    (h : e.allocateBlock cfg d cid blk b op = some (e', d', r)) : OwnersIn cid e e' := by
  -- a page from the free list, or that of another owner
  have hfree : e.allocateFree cfg d cid blk b op = some (e', d', r) → OwnersIn cid e e' := by
    intro h
    rw [allocateFree, getNextFreePage] at h
    obtain ⟨⟨e1, d1, next⟩, h1, h⟩ := Option.bind_eq_some_iff.mp h
    have hnext : OwnersIn cid e e1 := by
      obtain ⟨room, -, h1⟩ := Option.bind_eq_some_iff.mp h1
      cases room with
      | some p =>
          cases h1
          exact .refl e
      | none =>
          dsimp only at h1
          split at h1
          · cases h1
            exact .of_eq rfl
          · split_ifs at h1
            · split at h1
              · cases h1
              · cases h1
                intro o ho
                exact .inr ((Map.isSome_lookup_update e.ownerPagesMapping _ o _).symm.trans ho)
            · cases h1
              exact .refl e
    cases next with
    | none =>
        cases h
        exact hnext
    | some p =>
        dsimp only at h
        split_ifs at h
        · obtain ⟨e2, h2, h⟩ := Option.bind_eq_some_iff.mp h
          cases h
          exact hnext.trans (ownersIn_storeBlock h2)
        · cases h
          exact hnext
  rw [allocateBlock] at h
  split at h
  · split_ifs at h
    · obtain ⟨e1, h1, h⟩ := Option.map_eq_some_iff.mp h
      cases h
      -- a block that is cached is only updated
      rw [updateBlock] at h1
      obtain ⟨m, -, h1⟩ := Option.bind_eq_some_iff.mp h1
      obtain ⟨en, -, h1⟩ := Option.bind_eq_some_iff.mp h1
      cases h1
      exact .of_eq rfl
    · exact hfree h
  · exact hfree h

/-- **`allocate_blocks`**, with evictions or without. -/
lemma Rep.allocateBlocks (h : OneBlock cfg) (hR : Rep cfg e tbl none) (hcid : cid ≠ "none")
    (hL : LruOk cfg e fun p => (tbl p).isSome) {m : Map ℤ BlockData} {op : AllocateOperationType}
    {r : Map ℤ (Option ℕ)} (ha : e.allocateBlocks cfg d cid m op = some (e', d', r)) :
    ∃ tbl', Rep cfg e' tbl' none ∧ (LruOk cfg e' fun p => (tbl' p).isSome) ∧ OwnersIn cid e e' := by
  have hloop : ∀ (l : List (ℤ × BlockData)) (e : Engine) (tbl : PageTable) (d : Disk)
      (res : Map ℤ (Option ℕ)), Rep cfg e tbl none → (LruOk cfg e fun p => (tbl p).isSome) →
      allocateLoop cfg cid op l e d res = some (e', d', r) →
      ∃ tbl', Rep cfg e' tbl' none ∧ (LruOk cfg e' fun p => (tbl' p).isSome) ∧
      OwnersIn cid e e' := by
    intro l
    induction l with
    | nil =>
        intro e tbl d res hR hL ha
        cases ha
        exact ⟨tbl, hR, hL, .refl _⟩
    | cons x l ih =>
        intro e tbl d res hR hL ha
        obtain ⟨⟨e1, d1, p⟩, h1, ha⟩ := Option.bind_eq_some_iff.mp ha
        obtain ⟨tbl1, hR1, hL1⟩ := hR.allocateBlock_lruOk h hcid hL h1
        obtain ⟨tbl', h2, h3, h4⟩ := ih e1 tbl1 d1 _ hR1 hL1 ha
        exact ⟨tbl', h2, h3, (ownersIn_allocateBlock h1).trans h4⟩
  exact hloop _ e tbl d ∅ hR hL ha

/-- `remove_cached_blocks` forgets the owner. -/
lemma lookup_removeCachedBlocks (hR : Rep cfg e tbl none) (o : String) :
    (e.removeCachedBlocks cfg cid).ownerPagesMapping.lookup o
      = if o = cid then none else e.ownerPagesMapping.lookup o := by
  rw [Engine.removeCachedBlocks]
  cases hs : e.ownerPagesMapping.lookup cid with
  | none =>
      dsimp only
      split_ifs with ho
      · rw [ho, hs]
      · rfl
  | some s =>
      obtain ⟨hnd, -⟩ := hR.owned cid s hs
      obtain ⟨-, -, hown, -, -⟩ := foldl_releasePage cfg (cfg.unordered s)
        ((cfg.unordered_perm s).nodup_iff.mpr hnd)
        { e with ownerFreePagesMapping := e.ownerFreePagesMapping.erase cid }
      dsimp only
      rw [Map.lookup_erase', hown]

/-- `make_block_readable_to_offset` touches a page of the owner only. -/
lemma Rep.makeBlockReadableToOffset (hR : Rep cfg e tbl none) (hcid : cid ≠ "none")
    {p : ℕ} {b r : ℤ} (h : e.makeBlockReadableToOffset cfg cid p b r = some e') :
    Rep cfg e' tbl none ∧ e'.lru = e.lru ∧ e'.ownerPagesMapping = e.ownerPagesMapping := by
  rw [Engine.makeBlockReadableToOffset, Engine.getPagePtr] at h
  obtain ⟨page, hp, h⟩ := Option.bind_eq_some_iff.mp h
  split_ifs at hp with hlt
  cases hp
  split_ifs at h with hown
  · cases h
    refine ⟨?_, rfl, rfl⟩
    cases htp : tbl p with
    | none =>
        have hfree := hR.free p hlt htp (by simp)
        rw [Page.isPageOwner, decide_eq_true_eq, hfree.owner] at hown
        exact absurd hown.symm hcid
    | some ob =>
        exact hR.setPage htp ((hR.usedPage htp).makeBlockReadableTo b r)
  · cases h
    exact ⟨hR, rfl, rfl⟩

end Engine

/-! ### The cache -/

lemma Path.str_ne_empty (p : Path) : Path.str p ≠ "" := by
  intro h
  have hl := congrArg String.length h
  rw [Path.str, String.length_append] at hl
  exact absurd hl (by simp)

/-- A content id: an inode number, or the empty string for a path that is not mapped. -/
def IsKey (o : String) : Prop := o = "" ∨ ∃ i, o = inodeStr i

lemma IsKey.ne_none {o : String} (h : IsKey o) : o ≠ "none" := by
  rcases h with rfl | ⟨i, rfl⟩
  · decide
  · exact inodeStr_ne_none i

namespace Cache

variable {c c' : Cache} {tbl : PageTable} {d d' : Disk} {cid : String}

/-- The cache is tidy, whatever its items and its ordered entries say about the pages. -/
structure Tidy (cfg : Config) (c : Cache) (tbl : PageTable) : Prop where
  rep : Rep cfg c.engine tbl none
  lru : LruOk cfg c.engine fun p => (tbl p).isSome
  owners : ∀ o, (c.engine.ownerPagesMapping.lookup o).isSome → (c.contents.lookup o).isSome
  locks : ∀ o, (c.itemLocks.lookup o).isSome = (c.contents.lookup o).isSome
  keys : ∀ o, (c.contents.lookup o).isSome → IsKey o
  mapped : ∀ p s, c.fileInodeMapping.lookup p = some s → ∃ i, s = inodeStr i

namespace Tidy

lemma isKey (hT : c.Tidy cfg tbl) (path : Path) : IsKey (c.getOriginalInode path) := by
  rw [getOriginalInode]
  cases hs : c.fileInodeMapping.lookup path with
  | none => exact .inl rfl
  | some s => exact .inr (hT.mapped path s hs)

/-- A change that keeps the engine, the names and the ids of the items. -/
lemma of_items (hT : c.Tidy cfg tbl) (he : c'.engine = c.engine) (hl : c'.itemLocks = c.itemLocks)
    (hm : c'.fileInodeMapping = c.fileInodeMapping)
    (hc : ∀ o, (c'.contents.lookup o).isSome = (c.contents.lookup o).isSome) : c'.Tidy cfg tbl where
  rep := he ▸ hT.rep
  lru := he ▸ hT.lru
  owners := fun o ho => by
    rw [hc]
    exact hT.owners o (he ▸ ho)
  locks := fun o => by rw [hl, hc, hT.locks]
  keys := fun o ho => hT.keys o (hc o ▸ ho)
  mapped := fun p s hs => hT.mapped p s (hm ▸ hs)

/-- A change of the engine. -/
lemma of_engine (hT : c.Tidy cfg tbl) {e : Engine} {tbl' : PageTable} (hR : Rep cfg e tbl' none)
    (hL : LruOk cfg e fun p => (tbl' p).isSome)
    (ho : ∀ o, (e.ownerPagesMapping.lookup o).isSome → (c.contents.lookup o).isSome) :
    Tidy cfg { c with engine := e } tbl' :=
  ⟨hR, hL, ho, hT.locks, hT.keys, hT.mapped⟩

lemma setItem (hT : c.Tidy cfg tbl) (hc : (c.contents.lookup cid).isSome) (it' : Item) :
    (c.setItem cid it').Tidy cfg tbl := by
  refine hT.of_items rfl rfl rfl fun o => ?_
  rw [lookup_setItem]
  split_ifs with ho
  · rw [ho, hc]
    rfl
  · rfl

lemma updateContentMetadata (hT : c.Tidy cfg tbl) (cid : String) (newMeta : Metadata)
    (values : List MetaField) : (c.updateContentMetadata cid newMeta values).Tidy cfg tbl := by
  rw [Cache.updateContentMetadata]
  split
  · exact hT
  · rename_i it hit
    exact hT.setItem (by rw [hit]; rfl) _

/-! ### Blocks -/

lemma createItem (hT : c.Tidy cfg tbl) (hcid : IsKey cid) : (c.createItem cid).Tidy cfg tbl where
  rep := hT.rep
  lru := hT.lru
  owners := fun o ho => by
    rw [lookup_createItem]
    split_ifs
    · rfl
    · exact hT.owners o ho
  locks := fun o => by
    rw [lookup_createItem]
    show ((c.itemLocks.insertNew cid ()).lookup o).isSome = _
    rw [Map.lookup_insertNew]
    split_ifs
    · rfl
    · exact hT.locks o
  keys := fun o ho => by
    rw [lookup_createItem] at ho
    split_ifs at ho with heq
    · exact heq ▸ hcid
    · exact hT.keys o ho
  mapped := hT.mapped

/-- **`put_data_blocks`**. -/
theorem putDataBlocks (h : OneBlock cfg) (hT : c.Tidy cfg tbl) (hcid : IsKey cid)
    {blocks : Map ℤ BlockPut} {op : AllocateOperationType} {r : Map ℤ Bool}
    (hput : c.putDataBlocks cfg d cid blocks op = some (c', d', r)) : ∃ tbl', c'.Tidy cfg tbl' := by
  rw [Cache.putDataBlocks] at hput
  dsimp only at hput
  have hT1 : (if (!c.hasContentCached cid) = true then c.createItem cid else c).Tidy cfg tbl := by
    split_ifs
    · exact hT.createItem hcid
    · exact hT
  set c1 := if (!c.hasContentCached cid) = true then c.createItem cid else c with hc1
  obtain ⟨it, hit, hput⟩ := Option.bind_eq_some_iff.mp hput
  obtain ⟨⟨e1, d1, allocations⟩, h1, hput⟩ := Option.bind_eq_some_iff.mp hput
  obtain ⟨⟨it', e2, res, any⟩, h2, hput⟩ := Option.bind_eq_some_iff.mp hput
  cases hput
  have hne := hcid.ne_none
  obtain ⟨tbl', hR, hL, hO⟩ := hT1.rep.allocateBlocks h hne hT1.lru h1
  -- the second loop only moves readable ends
  have hloop : ∀ (l : List (ℤ × Option ℕ)) (it : Item) (e : Engine) (res : Map ℤ Bool) (any : Bool)
      (r : Item × Engine × Map ℤ Bool × Bool), Rep cfg e tbl' none →
      putLoop cfg cid blocks l it e res any = some r →
      Rep cfg r.2.1 tbl' none ∧ r.2.1.lru = e.lru ∧
      r.2.1.ownerPagesMapping = e.ownerPagesMapping := by
    intro l
    induction l with
    | nil =>
        intro it e res any r hR hr
        cases hr
        exact ⟨hR, rfl, rfl⟩
    | cons x l ih =>
        intro it e res any r hR hr
        obtain ⟨bid, page⟩ := x
        obtain ⟨b, -, hr⟩ := Option.bind_eq_some_iff.mp hr
        cases page with
        | none => exact ih _ _ _ _ r hR hr
        | some p =>
            obtain ⟨e3, h3, hr⟩ := Option.bind_eq_some_iff.mp hr
            obtain ⟨h4, h5, h6⟩ := hR.makeBlockReadableToOffset hne h3
            obtain ⟨h7, h8, h9⟩ := ih _ _ _ _ r h4 hr
            exact ⟨h7, h8.trans h5, h9.trans h6⟩
  obtain ⟨hR2, hL2, hO2⟩ := hloop _ _ _ _ _ _ hR h2
  have hsome : (c1.contents.lookup cid).isSome := by
    rw [hit]
    rfl
  refine ⟨tbl', (hT1.setItem hsome _).of_engine hR2 (hL.congr hL2) fun o ho => ?_⟩
  rw [show e2.ownerPagesMapping = e1.ownerPagesMapping from hO2] at ho
  rw [lookup_setItem]
  by_cases heq : o = cid
  · rw [if_pos heq]
    rfl
  · rw [if_neg heq]
    exact hT1.owners o ((hO o ho).resolve_left heq)

/-- The loop of `get_blocks` moves pages in use to the front of the list. -/
lemma getLoop_lru {e : Engine} (hR : Rep cfg e tbl none) (hL : LruOk cfg e fun p => (tbl p).isSome)
    (cid : String) (l : List (ℤ × (Option ℕ × Mem × ℤ))) (acc : Map ℤ Bool × Map ℤ Mem) :
    Rep cfg (Engine.getLoop cfg cid l e acc).1 tbl none ∧
      (LruOk cfg (Engine.getLoop cfg cid l e acc).1 fun p => (tbl p).isSome) ∧
      (Engine.getLoop cfg cid l e acc).1.ownerPagesMapping = e.ownerPagesMapping := by
  induction l generalizing e acc with
  | nil => exact ⟨hR, hL, rfl⟩
  | cons x l ih =>
      obtain ⟨blk, page, data, r⟩ := x
      obtain ⟨found, buffers⟩ := acc
      cases page with
      | none => exact ih hR hL _
      | some p =>
          rw [Engine.getLoop]
          by_cases hc : e.isBlockCached cfg cid (some p) blk = true
          · simp only [hc, if_true]
            obtain ⟨q, hq, htq⟩ := hR.isBlockCached_iff.mp hc
            rw [Option.some.injEq] at hq
            subst hq
            by_cases hl : cfg.applyLruEviction = true
            · simp only [hl, if_true]
              have hsame := sameStore_applyLruOnRead e p
              obtain ⟨h1, h2, h3⟩ := ih (hsame.rep hR)
                (hL.applyLruOnRead hl (p := p) (by rw [htq]; rfl)) (found.insertNew blk true,
                  buffers.insertNew blk ((e.searchIndex p).getBlockData blk data r))
              exact ⟨h1, h2, h3.trans hsame.ownerPagesMapping⟩
            · simp only [hl, Bool.false_eq_true, if_false]
              exact ih hR hL _
          · simp only [hc, Bool.false_eq_true, if_false]
            exact ih hR hL _

/-- **`get_data_blocks`**. -/
theorem getDataBlocks (hT : c.Tidy cfg tbl) {blocks : Map ℤ Mem}
    {r : Map ℤ (Bool × (ℤ × ℤ)) × Map ℤ Mem}
    (hget : c.getDataBlocks cfg cid blocks = some (c', r)) : c'.Tidy cfg tbl := by
  rw [Cache.getDataBlocks] at hget
  split at hget
  · cases hget
    exact hT
  · rename_i it hit
    obtain ⟨h1, h2, h3⟩ := getLoop_lru hT.rep hT.lru cid
      (getMapping cfg it blocks.sorted ∅).sorted (∅, ∅)
    obtain ⟨⟨it', res⟩, -, hget⟩ := Option.bind_eq_some_iff.mp hget
    cases hget
    have hsome : (c.contents.lookup cid).isSome := by
      rw [hit]
      rfl
    refine (hT.setItem hsome it').of_engine h1 h2 fun o ho => ?_
    rw [lookup_setItem]
    split_ifs
    · rfl
    · exact hT.owners o (h3 ▸ ho)

/-! ### Items -/

/-- **`truncate_item`** on a path finds no item. -/
lemma truncateItem_path (hT : c.Tidy cfg tbl) (path : Path) (n : ℕ) :
    c.truncateItem cfg path.str n = some (c, false) := by
  have hnone : c.contents.lookup path.str = none := by
    by_contra hne
    obtain ⟨it, hit⟩ := Option.ne_none_iff_exists'.mp hne
    rcases hT.keys path.str (by rw [hit]; rfl) with h | ⟨i, h⟩
    · exact Path.str_ne_empty path h
    · exact Path.str_ne_inodeStr path i h
  rw [Cache.truncateItem, hnone]

/-- **`sync_owner`**. -/
theorem syncOwner (hT : c.Tidy cfg tbl) {only : Bool} {path : Path} {io : SyncIo} {r : ℤ}
    (hs : c.syncOwner cfg d cid only path io = some (c', d', r)) : c'.Tidy cfg tbl := by
  rw [Cache.syncOwner] at hs
  split at hs
  · cases hs
    exact hT
  · rename_i it hit
    obtain ⟨⟨e', d1⟩, h1, hs⟩ := Option.bind_eq_some_iff.mp hs
    cases hs
    have hC := cleaned_of_syncPages h1
    have hsome : (c.contents.lookup cid).isSome := by
      rw [hit]
      rfl
    refine (hT.setItem hsome _).of_engine (hC.rep hT.rep) (hT.lru.congr hC.lru) fun o ho => ?_
    rw [lookup_setItem]
    split_ifs
    · rfl
    · exact hT.owners o (hC.ownerPagesMapping ▸ ho)

/-! ### Names and items -/

lemma setMapping (hT : c.Tidy cfg tbl) {m : Map Path String}
    (hm : ∀ p s, m.lookup p = some s → ∃ i, s = inodeStr i) :
    Tidy cfg { c with fileInodeMapping := m } tbl :=
  ⟨hT.rep, hT.lru, hT.owners, hT.locks, hT.keys, hm⟩

/-- **`insert_inode_mapping`**. -/
theorem insertInodeMapping (hT : c.Tidy cfg tbl) (path : Path) (i : ℕ) (increase : Bool) :
    (c.insertInodeMapping path (inodeStr i) increase).Tidy cfg tbl := by
  have hT1 :
      Tidy cfg { c with fileInodeMapping := c.fileInodeMapping.set path (inodeStr i) } tbl := by
    refine hT.setMapping fun p s hs => ?_
    rw [Map.lookup_set] at hs
    split_ifs at hs
    · exact ⟨i, (Option.some.inj hs).symm⟩
    · exact hT.mapped p s hs
  rw [Cache.insertInodeMapping]
  dsimp only
  split_ifs
  · split
    · exact hT1
    · exact hT1.updateContentMetadata _ _ _
  · exact hT1

/-- The removal of an item with its pages and its lock. -/
theorem deleteItem (h : OneBlock cfg) (hT : c.Tidy cfg tbl) (cid : String) :
    (c.deleteItem cfg cid).Tidy cfg (tbl.without cid) where
  rep := (hT.rep.removeCachedBlocks h cid).rep
  lru := by
    refine hT.lru.removeCachedBlocks cid (fun s hs p hp hps => ?_) fun hs p hp => ?_
    · obtain ⟨⟨o, b⟩, hob⟩ := Option.isSome_iff_exists.mp hp
      rw [PageTable.without_eq_some.mpr ⟨fun ho => hps ?_, hob⟩]
      · rfl
      · exact ((hT.rep.owned cid s hs).2 p).mpr ⟨b, ho ▸ hob⟩
    · obtain ⟨⟨o, b⟩, hob⟩ := Option.isSome_iff_exists.mp hp
      rw [PageTable.without_eq_some.mpr ⟨fun ho => ?_, hob⟩]
      · rfl
      · have hk := hT.rep.known p o b hob
        rw [ho, hs] at hk
        cases hk
  owners := fun o ho => by
    have ho' : ((c.engine.removeCachedBlocks cfg cid).ownerPagesMapping.lookup o).isSome := ho
    rw [lookup_removeCachedBlocks hT.rep] at ho'
    show ((c.contents.erase cid).lookup o).isSome
    rw [Map.lookup_erase']
    split_ifs at ho' ⊢
    · cases ho'
    · exact hT.owners o ho'
  locks := fun o => by
    show ((c.itemLocks.erase cid).lookup o).isSome = ((c.contents.erase cid).lookup o).isSome
    rw [Map.lookup_erase', Map.lookup_erase']
    split_ifs
    · rfl
    · exact hT.locks o
  keys := fun o ho => by
    have ho' : ((c.contents.erase cid).lookup o).isSome := ho
    rw [Map.lookup_erase'] at ho'
    split_ifs at ho'
    · cases ho'
    · exact hT.keys o ho'
  mapped := hT.mapped

lemma eraseMapping (hT : c.Tidy cfg tbl) (path : Path) :
    Tidy cfg { c with fileInodeMapping := c.fileInodeMapping.erase path } tbl := by
  refine hT.setMapping fun p s hs => ?_
  rw [Map.lookup_erase'] at hs
  split_ifs at hs
  exact hT.mapped p s hs

/-- **`rename_item`**. -/
theorem renameItem (h : OneBlock cfg) (hT : c.Tidy cfg tbl) (oldCid newCid : Path) :
    ∃ tbl', (c.renameItem cfg oldCid newCid).Tidy cfg tbl' := by
  rw [Cache.renameItem]
  split
  · exact ⟨tbl, hT⟩
  · rename_i inode hin
    dsimp only
    have hT1 : Tidy cfg
        { c with fileInodeMapping := Map.set (c.fileInodeMapping.erase oldCid) newCid inode }
          tbl := by
      refine hT.setMapping fun p s hs => ?_
      rw [Map.lookup_set] at hs
      split_ifs at hs
      · exact (Option.some.inj hs) ▸ hT.mapped oldCid inode hin
      · exact (hT.eraseMapping oldCid).mapped p s hs
    split
    · exact ⟨tbl, hT1⟩
    · rename_i it hit
      have hT2 := hT1.setItem (by rw [hit]; rfl) (dropLink it)
      split_ifs
      · exact ⟨tbl, hT2⟩
      · exact ⟨_, hT2.deleteItem h _⟩

/-- **`remove_cached_item`**. -/
theorem removeCachedItem (h : OneBlock cfg) (hT : c.Tidy cfg tbl) (owner : String) (path : Path)
    (isFromCache : Bool) : ∃ tbl',
      (c.removeCachedItem cfg owner path isFromCache).1.Tidy cfg tbl' := by
  rw [Cache.removeCachedItem]
  split
  · exact ⟨tbl, hT⟩
  · rename_i it hit
    dsimp only
    have hsome : (c.contents.lookup owner).isSome := by
      rw [hit]
      rfl
    have hT1 := (hT.eraseMapping path).setItem hsome (dropLink it)
    split_ifs
    · exact ⟨tbl, hT1⟩
    · exact ⟨_, hT1.deleteItem h owner⟩

/-- **`clear_all_cache`**. -/
theorem clearAllCache (h : OneBlock cfg) (hT : c.Tidy cfg tbl) :
    ∃ tbl', (c.clearAllCache cfg).Tidy cfg tbl' := by
  have hfold : ∀ {α : Type} (f : Cache → α → Cache),
      (∀ (c : Cache) (tbl : PageTable) x, c.Tidy cfg tbl → ∃ tbl', (f c x).Tidy cfg tbl') →
      ∀ (l : List α) (c : Cache) (tbl : PageTable), c.Tidy cfg tbl →
        ∃ tbl', (l.foldl f c).Tidy cfg tbl' := by
    intro α f hf l
    induction l with
    | nil => exact fun c tbl hT => ⟨tbl, hT⟩
    | cons x l ih =>
        intro c tbl hT
        obtain ⟨tbl1, hT1⟩ := hf c tbl x hT
        exact ih _ tbl1 hT1
  obtain ⟨tbl1, hT1⟩ := hfold (fun c it => (Cache.removeCachedItem cfg c it.2 it.1 true).1)
    (fun c tbl x hT => hT.removeCachedItem h x.2 x.1 true)
      (cfg.unordered c.fileInodeMapping.toList) c
    tbl hT
  exact hfold (fun c cid => Cache.deleteItem cfg c cid)
    (fun c tbl x hT => ⟨_, hT.deleteItem h x⟩) _ _ tbl1 hT1

/-- A fresh cache is tidy. -/
lemma new (h : OneBlock cfg) : (Cache.new cfg).Tidy cfg fun _ => none where
  rep := rep_new h
  lru :=
    { iter := fun p n => by simp [Cache.new, Engine.new]
      nodup := List.nodup_nil
      fresh := fun x hx => by cases hx
      live := fun x hx => by cases hx
      off := fun _ => rfl }
  owners := fun o ho => by
    simp only [Cache.new, Engine.new, AList.lookup_empty] at ho
    cases ho
  locks := fun o => rfl
  keys := fun o ho => by
    simp only [Cache.new, AList.lookup_empty] at ho
    cases ho
  mapped := fun p s hs => by
    simp only [Cache.new, AList.lookup_empty] at hs
    cases hs

end Tidy

end Cache

end LazyFS
