import LazyFS.Rep.ItemOps
import LazyFS.File.View

/-!
The resident blocks of the cache, without the page numbers.

* `Cache.view`: the block `b` of a content id, if it is resident; `Good.view_iff` and
  `Good.isBlockCached_iff`.
* `Cache.SameFiles`: two caches with the same blocks, metadata and names.
* `Good.putBlock`: one block put without eviction; `Good.getBlock`: one block read.
-/

namespace LazyFS

open Engine

variable {cfg : Config}

/-- The block in a page. -/
def Engine.blockAt (cfg : Config) (e : Engine) (p : ℕ) (readableTo : ℤ) : BlockView :=
  ⟨(e.searchIndex p).data.read 0 cfg.ioBlockSize, readableTo, (e.searchIndex p).isDirty⟩

/-- A block of an item, if it is in a page. -/
def Item.view (cfg : Config) (it : Item) (e : Engine) (b : ℤ) : Option BlockView :=
  (it.data.blocks.lookup b).bind fun info => info.pageIndexNumber.map fun p =>
    e.blockAt cfg p info.readableOffset.2

namespace Cache

/-- A block of the cache, if it is in a page. -/
def view (cfg : Config) (c : Cache) (cid : String) (b : ℤ) : Option BlockView :=
  (c.contents.lookup cid).bind fun it => it.view cfg c.engine b

variable {c c' : Cache} {tbl : PageTable} {cid : String} {b : ℤ}

lemma view_of_lookup {it : Item} (hit : c.contents.lookup cid = some it) :
    c.view cfg cid b = it.view cfg c.engine b := by rw [view, hit, Option.bind_some]

lemma view_of_lookup_none (hit : c.contents.lookup cid = none) : c.view cfg cid b = none := by
  rw [view, hit, Option.bind_none]

/-- A block that is seen is in the page that the item and the table name. -/
lemma Good.exists_of_view (hG : c.Good cfg tbl) {v : BlockView} (hv : c.view cfg cid b = some v) :
    ∃ it info p, c.contents.lookup cid = some it ∧ it.data.blocks.lookup b = some info ∧
      info.pageIndexNumber = some p ∧ tbl p = some (cid, b) ∧
      v = c.engine.blockAt cfg p info.readableOffset.2 := by
  obtain ⟨it, hit, hv⟩ := Option.bind_eq_some_iff.mp hv
  obtain ⟨info, hinfo, hv⟩ := Option.bind_eq_some_iff.mp hv
  obtain ⟨p, hp, hv⟩ := Option.map_eq_some_iff.mp hv
  obtain ⟨q, hq, htq⟩ := (hG.items cid it hit).infos b info hinfo (by simp)
  rw [hp, Option.some.injEq] at hq
  exact ⟨it, info, p, hit, hinfo, hp, hq ▸ htq, hv.symm⟩

/-- A page in use is seen. -/
lemma Good.view_of_tbl (hG : c.Good cfg tbl) {p : ℕ} (hp : tbl p = some (cid, b)) :
    ∃ it info, c.contents.lookup cid = some it ∧ it.data.blocks.lookup b = some info ∧
      info.pageIndexNumber = some p ∧
      c.view cfg cid b = some (c.engine.blockAt cfg p info.readableOffset.2) := by
  obtain ⟨it, hit⟩ := Option.isSome_iff_exists.mp (hG.known p cid b hp)
  obtain ⟨info, hinfo, hpage, -⟩ := (hG.items cid it hit).reads p b hp (by simp)
  refine ⟨it, info, hit, hinfo, hpage, ?_⟩
  rw [view_of_lookup hit, Item.view, hinfo, Option.bind_some, hpage]
  rfl

/-- A block that is not seen is in no page. -/
lemma Good.tbl_ne_of_view (hG : c.Good cfg tbl) (hv : c.view cfg cid b = none) (p : ℕ) :
    tbl p ≠ some (cid, b) := by
  intro hp
  obtain ⟨it, info, -, -, -, hv'⟩ := hG.view_of_tbl hp
  rw [hv] at hv'
  cases hv'

lemma Good.isBlockCached_eq (hG : c.Good cfg tbl) (cid : String) (b : ℤ) :
    c.isBlockCached cfg cid b = (c.view cfg cid b).isSome := by
  cases hit : c.contents.lookup cid with
  | none => rw [isBlockCached, hit, view_of_lookup_none hit, Option.isSome_none]
  | some it =>
      have hI := hG.items cid it hit
      rw [isBlockCached, hit, Bool.eq_iff_iff]
      dsimp only
      rw [hG.rep.isBlockCached_iff, Option.isSome_iff_exists]
      constructor
      · rintro ⟨p, -, hp⟩
        obtain ⟨-, info, -, -, -, hv⟩ := hG.view_of_tbl hp
        exact ⟨_, hv⟩
      · rintro ⟨v, hv⟩
        obtain ⟨-, -, p, -, -, -, hp, -⟩ := hG.exists_of_view hv
        exact ⟨p, hI.getPageId.mpr hp, hp⟩

/-! ### Frames -/

/-- Two caches with the same blocks, metadata and names. -/
structure SameFiles (cfg : Config) (c c' : Cache) : Prop where
  view : ∀ o b, c'.view cfg o b = c.view cfg o b
  metadata : ∀ o, c'.getContentMetadata o = c.getContentMetadata o
  mapping : c'.fileInodeMapping = c.fileInodeMapping
  freePages : c'.engine.freePages = c.engine.freePages

lemma SameFiles.refl (c : Cache) : SameFiles cfg c c := ⟨fun _ _ => rfl, fun _ => rfl, rfl, rfl⟩

lemma SameFiles.trans {c'' : Cache} (h : SameFiles cfg c c') (h' : SameFiles cfg c' c'') :
    SameFiles cfg c c'' :=
  ⟨fun o b => (h'.view o b).trans (h.view o b), fun o => (h'.metadata o).trans (h.metadata o),
    h'.mapping.trans h.mapping, h'.freePages.trans h.freePages⟩

/-- The view depends on the block infos and on the pages they name. -/
lemma view_congr (hb : ∀ o b, ((c'.contents.lookup o).bind fun it => it.data.blocks.lookup b)
      = (c.contents.lookup o).bind fun it => it.data.blocks.lookup b)
    (hs : c'.engine.searchIndex = c.engine.searchIndex) (o : String) (b : ℤ) :
    c'.view cfg o b = c.view cfg o b := by
  have key : ∀ c : Cache, c.view cfg o b
      = ((c.contents.lookup o).bind fun it => it.data.blocks.lookup b).bind fun info =>
          info.pageIndexNumber.map fun p => c.engine.blockAt cfg p info.readableOffset.2 := by
    intro c
    rw [view, Option.bind_assoc]
    rfl
  rw [key, key, hb]
  simp only [blockAt, hs]

/-- Reading the metadata of a cache after an item is replaced. -/
lemma getContentMetadata_setItem (c : Cache) (cid o : String) (it : Item) :
    (c.setItem cid it).getContentMetadata o
      = if o = cid then some it.metadata else c.getContentMetadata o := by
  rw [getContentMetadata, lookup_setItem]
  split_ifs <;> rfl

/-- The blocks of a cache after an item is replaced. -/
lemma view_setItem (c : Cache) (cid o : String) (it : Item) (b : ℤ) :
    (c.setItem cid it).view cfg o b
      = if o = cid then it.view cfg c.engine b else c.view cfg o b := by
  rw [view, lookup_setItem]
  split_ifs <;> rfl

/-! ### One block put -/

/-- `put_data_blocks` of one block of an item that is there. -/
lemma putDataBlocks_single {it : Item} (hit : c.contents.lookup cid = some it) (d : Disk)
    (bp : BlockPut) (op : AllocateOperationType) :
    c.putDataBlocks cfg d cid (Map.single b bp) op
      = (c.engine.allocateBlock cfg d cid b ⟨it.data.getPageId b, bp.data, bp.len, bp.offStart⟩
          op).bind fun r =>
        match r.2.2 with
        | some p =>
            (r.1.makeBlockReadableToOffset cfg cid p b (it.data.setBlockPageId b p bp.rsTo).2).map
              fun e =>
                ({ (c.setItem cid
                    ({ it with data := (it.data.setBlockPageId b p bp.rsTo).1 }.setDataSyncFlag
                      false)) with engine := e }, r.2.1, Map.single b true)
        | none =>
            some ({ (c.setItem cid { it with data := it.data.removeBlock b }) with engine := r.1 },
              r.2.1, Map.single b false) := by
  have hnew : c.hasContentCached cid = true := by rw [hasContentCached, hit]; rfl
  rw [putDataBlocks]
  simp only [hnew, Bool.not_true, Bool.false_eq_true, if_false, hit, Option.bind_eq_bind,
    Option.bind_some, Map.sorted_single, putMapping, Map.insertNew_empty, Engine.allocateBlocks,
    Engine.allocateLoop]
  rw [Option.bind_assoc]
  refine congrArg _ (funext fun r => ?_)
  rw [Option.bind_some, Map.sorted_single]
  cases hr : r.2.2 with
  | some p =>
      simp only [putLoop, Map.lookup_single_self, Option.bind_eq_bind, Option.bind_some,
        Map.insertNew_empty]
      cases r.1.makeBlockReadableToOffset cfg cid p b (it.data.setBlockPageId b p bp.rsTo).2 with
      | some e => rfl
      | none => rfl
  | none =>
      simp only [putLoop, Map.lookup_single_self, Option.bind_eq_bind, Option.bind_some,
        Map.insertNew_empty]
      rfl

/-- A block whose info and page stay as they are. -/
lemma Good.view_eq (hG : c.Good cfg tbl)
    (hb : ((c'.contents.lookup cid).bind fun it => it.data.blocks.lookup b)
      = (c.contents.lookup cid).bind fun it => it.data.blocks.lookup b)
    (hs : ∀ p, tbl p = some (cid, b) → c'.engine.searchIndex p = c.engine.searchIndex p) :
    c'.view cfg cid b = c.view cfg cid b := by
  have key : ∀ c : Cache, c.view cfg cid b
      = ((c.contents.lookup cid).bind fun it => it.data.blocks.lookup b).bind fun info =>
          info.pageIndexNumber.map fun p => c.engine.blockAt cfg p info.readableOffset.2 := by
    intro c
    rw [view, Option.bind_assoc]
    rfl
  rw [key, key, hb]
  refine Option.bind_congr fun info hinfo => ?_
  obtain ⟨it, hit, hinfo⟩ := Option.bind_eq_some_iff.mp hinfo
  obtain ⟨p, hp, htp⟩ := (hG.items cid it hit).infos b info hinfo (by simp)
  rw [hp, Option.map_some, Option.map_some, blockAt, blockAt, hs p htp]

/-- The engine learns the readable end of a block in its page. -/
lemma rep_makeBlockReadableToOffset {e : Engine} (hR : Rep cfg e tbl none)
    {p : ℕ} (hp : tbl p = some (cid, b)) (r : ℤ) :
    e.makeBlockReadableToOffset cfg cid p b r
      = some (e.setPage p ((e.searchIndex p).makeBlockReadableTo b r)) := by
  have ho : (e.searchIndex p).isPageOwner cid = true := by
    rw [Page.isPageOwner, (hR.usedPage hp).owner, decide_eq_true_eq]
  simp [Engine.makeBlockReadableToOffset, hR.getPagePtr hp, ho]

/-- The bytes and the flag of a block after an allocation that evicts nothing. -/
lemma blockAt_allocated (h : OnePage cfg) {e e' : Engine} {d d' : Disk} {tbl' : PageTable}
    {bd : BlockData} {p : ℕ} {start : ℕ} (hR : Rep cfg e tbl none)
    (hA : Allocated cfg e d tbl cid b bd e' d' tbl' (some p)) (hno : NoEviction cfg e tbl cid b bd)
    (hstart : bd.offStart = start) (hfit : start + bd.len ≤ cfg.ioBlockSize) (r : ℤ) :
    e'.blockAt cfg p r = ⟨Bytes.write
      (if tbl p = some (cid, b) then (e.searchIndex p).data.read 0 cfg.ioBlockSize
        else List.replicate cfg.ioBlockSize 0) start (bd.data.read 0 bd.len), r, true⟩ := by
  cases hA with
  | update _ hb hq _ hU =>
      rw [if_pos hq, blockAt, hU.searchIndex, Function.update_self,
        (hR.usedPage hq).updateBlockData h.two_le, hstart]
      dsimp only
      rw [read_memcpy _ _ _ hfit]
  | fresh _ hb hp hfree hR1 hS =>
      have hn : tbl p ≠ some (cid, b) := by
        rw [(hR1.inHand p rfl).2]
        simp
      rw [if_neg hn, blockAt, hS.searchIndex, Function.update_self, hstart,
        BarePage.read_storedPage hfree.toBarePage hfit]
      rfl
  | evict _ o b' hb hnil hl _ _ _ => exact (hno.elim hb hnil hl).elim

/-- A block keeps its page. -/
lemma tbl_allocated {e e' : Engine} {d d' : Disk} {tbl' : PageTable} {bd : BlockData}
    {page : Option ℕ} (hA : Allocated cfg e d tbl cid b bd e' d' tbl' page)
    (hno : NoEviction cfg e tbl cid b bd) {q : ℕ} (hq : tbl q = some (cid, b)) :
    tbl' q = some (cid, b) := by
  cases hA with
  | update => exact hq
  | fresh p _ _ _ _ _ =>
      by_cases hqp : q = p
      · rw [hqp, Function.update_self]
      · rw [Function.update_of_ne hqp, hq]
  | evict _ o b' hb hnil hl _ _ _ => exact (hno.elim hb hnil hl).elim
  | full => exact hq

/-- A readable end is never lowered. -/
lemma readableOffset_makeReadableTo (info : BlockInfo) (r : ℤ) :
    (info.makeReadableTo r).readableOffset.2 = max info.readableOffset.2 r := by
  rw [BlockInfo.makeReadableTo]
  split_ifs with hlt
  · exact (max_eq_right hlt.le).symm
  · exact (max_eq_left (not_lt.mp hlt)).symm

lemma pageIndexNumber_makeReadableTo (info : BlockInfo) (r : ℤ) :
    (info.makeReadableTo r).pageIndexNumber = info.pageIndexNumber := by
  rw [BlockInfo.makeReadableTo]
  split_ifs <;> rfl

/-- The cache after one block is put: `stored` says whether it found a page. -/
structure BlockPutOk (cfg : Config) (c : Cache) (cid : String) (b : ℤ) (start : ℕ) (bp : BlockPut)
    (c' : Cache) (stored : Bool) : Prop where
  good : ∃ tbl', c'.Good cfg tbl'
  mapping : c'.fileInodeMapping = c.fileInodeMapping
  metadata : ∀ o, c'.getContentMetadata o = c.getContentMetadata o
  view : ∀ o b', c'.view cfg o b' = if o = cid ∧ b' = b ∧ stored = true then
      some (((c.view cfg cid b).getD (.zero cfg.ioBlockSize)).overwrite start
        (bp.data.read 0 bp.len))
    else c.view cfg o b'
  stored_iff : stored = true ↔ (c.view cfg cid b).isSome ∨ c.engine.freePages ≠ []
  freePages : c'.engine.freePages.length
    = if (c.view cfg cid b).isSome then c.engine.freePages.length
      else c.engine.freePages.length - 1

/-- A block is seen exactly when it is in a page. -/
lemma Good.isSome_view_iff (hG : c.Good cfg tbl) :
    (c.view cfg cid b).isSome ↔ ∃ p, tbl p = some (cid, b) := by
  rw [Option.isSome_iff_exists]
  constructor
  · rintro ⟨v, hv⟩
    obtain ⟨-, -, p, -, -, -, hp, -⟩ := hG.exists_of_view hv
    exact ⟨p, hp⟩
  · rintro ⟨p, hp⟩
    obtain ⟨_, _, -, -, -, hv⟩ := hG.view_of_tbl hp
    exact ⟨_, hv⟩

section PutBlock

variable {it : Item} {bp : BlockPut} {bd : BlockData} {e' : Engine} {d d' : Disk} {tbl' : PageTable}
  {page : Option ℕ} {p start : ℕ}

/-- The cache that the put leaves, when the engine has taken the block to a page or has none. -/
def afterPut (c : Cache) (cid : String) (b : ℤ) (it : Item) (bp : BlockPut) (e' : Engine) :
    Option ℕ → Cache
  | some p =>
      { (c.setItem cid
          ({ it with data := (it.data.setBlockPageId b p bp.rsTo).1 }.setDataSyncFlag false)) with
        engine := e'.setPage p
          ((e'.searchIndex p).makeBlockReadableTo b (it.data.setBlockPageId b p bp.rsTo).2) }
  | none => { (c.setItem cid { it with data := it.data.removeBlock b }) with engine := e' }

lemma putDataBlocks_afterPut (hit : c.contents.lookup cid = some it) {op : AllocateOperationType}
    (ha : c.engine.allocateBlock cfg d cid b ⟨it.data.getPageId b, bp.data, bp.len, bp.offStart⟩ op
      = some (e', d', page)) (hR : Rep cfg e' tbl' none)
    (hp : ∀ p, page = some p → tbl' p = some (cid, b)) :
    c.putDataBlocks cfg d cid (Map.single b bp) op
      = some (c.afterPut cid b it bp e' page, d', Map.single b page.isSome) := by
  rw [putDataBlocks_single hit, ha, Option.bind_some]
  cases page with
  | none => rfl
  | some p =>
      dsimp only
      rw [rep_makeBlockReadableToOffset hR (hp p rfl), Option.map_some]
      rfl

/-- The infos of the other blocks stay as they are. -/
lemma infos_afterPut (hit : c.contents.lookup cid = some it) {o : String} {b' : ℤ}
    (hob : ¬ (o = cid ∧ b' = b)) :
    (((c.afterPut cid b it bp e' page).contents.lookup o).bind fun it => it.data.blocks.lookup b')
      = (c.contents.lookup o).bind fun it => it.data.blocks.lookup b' := by
  have hblocks : cid = o → b' ≠ b := fun ho hb => hob ⟨ho.symm, hb⟩
  cases page with
  | none =>
      rw [afterPut, lookup_setItem]
      split_ifs with ho
      · rw [ho, hit, Option.bind_some, Option.bind_some, Data.removeBlock, Map.lookup_erase',
          if_neg (hblocks ho.symm)]
      · rfl
  | some p =>
      rw [afterPut, lookup_setItem]
      split_ifs with ho
      · rw [ho, hit, Option.bind_some, Option.bind_some, Item.setDataSyncFlag,
          Data.setBlockPageId]
        exact Map.lookup_set_ne _ _ (hblocks ho.symm)
      · rfl

/-- Without a page the block is not seen. -/
lemma view_afterPut_none : (c.afterPut cid b it bp e' none).view cfg cid b = none := by
  rw [view, afterPut, lookup_setItem, if_pos rfl, Option.bind_some, Item.view, Data.removeBlock,
    Map.lookup_erase', if_pos rfl, Option.bind_none]

/-- In its page the block is seen with the bytes that the engine stored there. -/
lemma view_afterPut_some :
    (c.afterPut cid b it bp e' (some p)).view cfg cid b
      = some (e'.blockAt cfg p
          (max ((it.data.blocks.lookup b).getD .new).readableOffset.2 bp.rsTo)) := by
  rw [view, afterPut, lookup_setItem, if_pos rfl, Option.bind_some, Item.view, Item.setDataSyncFlag,
    Data.setBlockPageId]
  dsimp only
  rw [Map.lookup_set_self, Option.bind_some, pageIndexNumber_makeReadableTo,
    readableOffset_makeReadableTo, BlockInfo.setPageIndexNumber, Option.map_some,
    Option.some.injEq, blockAt, blockAt, searchIndex_setPage_self, Page.makeBlockReadableTo]

/-- The page of a block that was not seen is one that it had not, and no info of it is left. -/
lemma Good.lookup_of_view_none (hG : c.Good cfg tbl) (hit : c.contents.lookup cid = some it)
    (hv : c.view cfg cid b = none) : it.data.blocks.lookup b = none := by
  rw [← Option.not_isSome_iff_eq_none, Option.isSome_iff_exists]
  rintro ⟨info, hinfo⟩
  obtain ⟨q, hq, htq⟩ := (hG.items cid it hit).infos b info hinfo (by simp)
  exact hG.tbl_ne_of_view hv q htq

variable (hno : NoEviction cfg c.engine tbl cid b bd)
  (hknown : ∀ q, tbl q = some (cid, b) → bd.pageId = some q)
include hno hknown

/-- When the engine has a page for the block, and how many it has left. -/
lemma Good.allocated_freePages (hG : c.Good cfg tbl)
    (hA : Allocated cfg c.engine d tbl cid b bd e' d' tbl' page) :
    (page.isSome ↔ (c.view cfg cid b).isSome ∨ c.engine.freePages ≠ []) ∧
      e'.freePages.length = if (c.view cfg cid b).isSome then c.engine.freePages.length
        else c.engine.freePages.length - 1 := by
  have hnone : (∀ q, bd.pageId = some q → tbl q ≠ some (cid, b)) → ¬ (c.view cfg cid b).isSome := by
    intro hb hs
    obtain ⟨q, hq⟩ := hG.isSome_view_iff.mp hs
    exact hb q (hknown q hq) hq
  cases hA with
  | update p _ hq _ hU =>
      have hv := hG.isSome_view_iff.mpr ⟨p, hq⟩
      exact ⟨iff_of_true rfl (.inl hv), by rw [if_pos hv, hU.freePages]⟩
  | fresh p hb hlast _ _ hS =>
      have hne : c.engine.freePages ≠ [] := fun hnil => by rw [hnil] at hlast; cases hlast
      refine ⟨iff_of_true rfl (.inr hne), ?_⟩
      rw [if_neg (hnone hb), hS.freePages]
      exact List.length_dropLast
  | evict _ _ _ hb hnil hl _ _ _ => exact (hno.elim hb hnil hl).elim
  | full hb hnil _ =>
      refine ⟨iff_of_false Bool.false_ne_true fun hor => ?_, by rw [if_neg (hnone hb), hnil]; rfl⟩
      exact hor.elim (hnone hb) fun hne => hne hnil

/-- The block that was stored, over the bytes it had or over zeros. -/
lemma Good.blockAt_put (h : OnePage cfg) (hG : c.Good cfg tbl)
    (hit : c.contents.lookup cid = some it)
    (hA : Allocated cfg c.engine d tbl cid b bd e' d' tbl' (some p)) (hstart : bd.offStart = start)
    (hfit : start + bd.len ≤ cfg.ioBlockSize) :
    e'.blockAt cfg p
        (max ((it.data.blocks.lookup b).getD .new).readableOffset.2 (start + bd.len - 1))
      = ((c.view cfg cid b).getD (.zero cfg.ioBlockSize)).overwrite start
          (bd.data.read 0 bd.len) := by
  rw [blockAt_allocated h hG.rep hA hno hstart hfit, BlockView.overwrite, Mem.length_read]
  by_cases hp : tbl p = some (cid, b)
  · obtain ⟨it', info, hit', hinfo, hpi, hv⟩ := hG.view_of_tbl hp
    rw [hit, Option.some.injEq] at hit'
    rw [if_pos hp, hv, Option.getD_some, hit', hinfo, Option.getD_some]
    rfl
  · have hv : c.view cfg cid b = none := by
      rw [← Option.not_isSome_iff_eq_none, hG.isSome_view_iff]
      rintro ⟨q, hq⟩
      have hqp := (hA.self hno hknown q).mpr (tbl_allocated hA hno hq)
      rw [Option.some.injEq] at hqp
      exact hp (hqp ▸ hq)
    rw [if_neg hp, hv, Option.getD_none, hG.lookup_of_view_none hit hv, Option.getD_none]
    rfl

end PutBlock

/-- **One block put** without eviction, on an item that is there. -/
theorem Good.putBlock (h : OnePage cfg) (hG : c.Good cfg tbl) (hcid : cid ≠ "none") {it : Item}
    (hit : c.contents.lookup cid = some it) (b : ℤ) {start : ℕ} (bp : BlockPut)
    (hstart : bp.offStart = start) (hfit : start + bp.len ≤ cfg.ioBlockSize)
    (hrs : bp.rsTo = start + bp.len - 1) (op : AllocateOperationType) (d : Disk)
    (hno : cfg.applyLruEviction = true → c.engine.freePages = [] → (c.view cfg cid b).isSome) :
    ∃ c' stored, c.putDataBlocks cfg d cid (Map.single b bp) op
      = some (c', d, Map.single b stored) ∧
      BlockPutOk cfg c cid b start bp c' stored := by
  have hI := hG.items cid it hit
  obtain ⟨c', res, tbl', hput, hok⟩ := hG.putDataBlocks h hcid (Map.single b bp) op d
    (fun _ => by simp) (fun b' hb' hl hnil => by
      rw [Map.lookup_single] at hb'
      split_ifs at hb' with hbb
      · exact hbb ▸ hG.isSome_view_iff.mp (hno hl hnil)
      · cases hb')
  -- the turn of the engine evicts nothing
  set bd : BlockData := ⟨it.data.getPageId b, bp.data, bp.len, bp.offStart⟩ with hbd
  have hno' : NoEviction cfg c.engine tbl cid b bd := fun hl hnil => by
    obtain ⟨p, hp⟩ := hG.isSome_view_iff.mp (hno hl hnil)
    exact ⟨p, hI.getPageId.mpr hp, hp⟩
  have hknown : ∀ q, tbl q = some (cid, b) → bd.pageId = some q := fun q hq => hI.getPageId.mpr hq
  obtain ⟨e', d', page, tbl1, ha, hA⟩ :=
    hG.rep.allocateBlock_noEviction h hG.exact hcid hno' d op
  have hput' := putDataBlocks_afterPut hit ha (hA.rep hG.rep)
    fun p hp => (hA.self hno' hknown p).mp hp
  rw [hput, Option.some.injEq, Prod.mk.injEq, Prod.mk.injEq] at hput'
  obtain ⟨rfl, rfl, rfl⟩ := hput'
  obtain ⟨hstored, hfree⟩ := hG.allocated_freePages hno' hknown hA
  refine ⟨_, page.isSome, hput, ⟨tbl', hok.good⟩, hok.fileInodeMapping, fun o => ?_,
    fun o b' => ?_, hstored, ?_⟩
  · rw [hok.metadata]
    split_ifs with ho
    · rw [ho, getContentMetadata, hit]
      rfl
    · rfl
  · by_cases hob : o = cid ∧ b' = b
    · obtain ⟨rfl, rfl⟩ := hob
      cases page with
      | none =>
          have hv : c.view cfg o b' = none := by
            rw [← Option.not_isSome_iff_eq_none]
            exact fun hs => Bool.false_ne_true (hstored.mpr (.inl hs))
          rw [view_afterPut_none, if_neg (by simp), hv]
      | some p =>
          rw [view_afterPut_some, if_pos ⟨rfl, rfl, rfl⟩, hrs]
          exact congrArg some (hG.blockAt_put hno' hknown h hit hA hstart hfit)
    · -- another block keeps its info and its page
      rw [if_neg (by tauto)]
      refine hG.view_eq (infos_afterPut hit hob) fun p hp => (hok.others p o b' ?_).2 hp
      rw [Map.sorted_single, List.map_singleton, List.mem_singleton]
      tauto
  · rw [← hfree]
    cases page with
    | none => rfl
    | some p => rw [afterPut, freePages_setPage]

/-! ### One block read -/

/-- The buffer a block is copied to. -/
lemma getBlockData_eq {e : Engine} {p : ℕ} (hu : UsedPage cfg cid b (e.searchIndex p)) (r : ℤ)
    (buffer : Mem) :
    (e.searchIndex p).getBlockData b buffer (cfg.ioBlockSize - 1)
      = memcpy buffer 0 (.ofList (e.blockAt cfg p r).bytes) 0 cfg.ioBlockSize := by
  rw [Page.getBlockData, hu.getBlockOffsets]
  simp only [slot, blockAt]
  rw [show (cfg.ioBlockSize : ℤ) - 1 + 1 - 0 = (cfg.ioBlockSize : ℤ) from by ring]
  funext i
  rw [memcpy, memcpy]
  split_ifs with hi
  · have hlt : (0 + (i - 0)).toNat < cfg.ioBlockSize := by omega
    rw [Mem.ofList, if_pos (by omega), List.getD_eq_getElem?_getD, Mem.getElem?_read _ _ hlt,
      Option.getD_some]
    congr 1
    omega
  · rfl

/-- **One block read**: the buffer receives the bytes of the block, and no file changes. -/
theorem Good.getBlock (hG : c.Good cfg tbl) {v : BlockView} (hv : c.view cfg cid b = some v)
    (buffer : Mem) :
    ∃ c' found buffers from', c.getDataBlocks cfg cid (Map.single b buffer)
        = some (c', found, buffers) ∧
      c'.Good cfg tbl ∧ SameFiles cfg c c' ∧ found.lookup b = some (true, (from', v.readableTo)) ∧
      buffers.lookup b = some (memcpy buffer 0 (.ofList v.bytes) 0 cfg.ioBlockSize) := by
  obtain ⟨it, info, p, hit, hinfo, hp, htp, rfl⟩ := hG.exists_of_view hv
  obtain ⟨c', found, buffers, hget, hG', hsame, hmap, hmeta, hblocks, hfound⟩ :=
    hG.getDataBlocks cid (Map.single b buffer)
  obtain ⟨h1, h2⟩ := hfound it b buffer p info hit (Map.lookup_single_self b buffer) hinfo hp
  refine ⟨c', found, buffers, info.readableOffset.1, hget, hG',
    ⟨view_congr hblocks hsame.searchIndex, hmeta, hmap, hsame.freePages⟩, h1, ?_⟩
  rw [h2, getBlockData_eq (hG.rep.usedPage htp) info.readableOffset.2 buffer]

end Cache

end LazyFS
