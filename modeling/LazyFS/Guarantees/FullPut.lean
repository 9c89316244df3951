import LazyFS.Rep.Invariant
import LazyFS.Rep.Marks
import LazyFS.File.Cached

/-!
**A put that runs out of pages**, with eviction off.

* `Batch.filled`: the loop of `allocate_blocks` gives the free pages to the first blocks of the
  batch that are not resident.
* `putLoop_infos`: what the loop of `put_data_blocks` makes of the block infos.
* `Cache.PutExact`: the resident blocks are updated, the lowest-numbered others are stored as far as
  there are free pages, the rest is absent, and no other block changes.
* `putExact_of_run`: so it is after every run; `put_none_throws`: not for the label of a free page.
-/

namespace LazyFS

open Engine

variable {cfg : Config}

/-! ### The loop of `allocate_blocks` -/

namespace Engine

variable {e e' : Engine} {d d' : Disk} {tbl : PageTable} {cid : String} {op : AllocateOperationType}

/-- The blocks of a batch that are not resident, in order. -/
def missing (resident : ℤ → Bool) (l : List ℤ) : List ℤ := l.filter fun b => !resident b

lemma missing_cons_resident {resident : ℤ → Bool} {b : ℤ} (l : List ℤ) (h : resident b = true) :
    missing resident (b :: l) = missing resident l := List.filter_cons_of_neg (by simp [h])

lemma missing_cons_missing {resident : ℤ → Bool} {b : ℤ} (l : List ℤ) (h : resident b = false) :
    missing resident (b :: l) = b :: missing resident l := List.filter_cons_of_pos (by simp [h])

lemma mem_of_mem_missing {resident : ℤ → Bool} {b : ℤ} {l : List ℤ} (h : b ∈ missing resident l) :
    b ∈ l := (List.mem_filter.mp h).1

/-- What one block of a batch becomes in the loop, where `f` pages were free. -/
structure Filled (cfg : Config) (e : Engine) (tbl : PageTable) (cid : String) (resident : ℤ → Bool)
    (l : List (ℤ × BlockData)) (e' : Engine) (res : Map ℤ (Option ℕ))
    (x : ℤ × BlockData) : Prop where
  /-- A resident block is updated in its page. -/
  updated : resident x.1 = true → ∃ p, tbl p = some (cid, x.1) ∧ res.lookup x.1 = some (some p) ∧
    e'.searchIndex p = ((e.searchIndex p).updateBlockData x.1 x.2.data x.2.len x.2.offStart).1
  /-- The first of the others are stored in pages that were free. -/
  stored : x.1 ∈ (missing resident (l.map Prod.fst)).take e.freePages.length →
    ∃ p pg, FreePage cfg pg ∧
    res.lookup x.1 = some (some p) ∧
    e'.searchIndex p = storedPage cfg pg cid x.1 x.2.data x.2.len x.2.offStart
  /-- The rest finds no page. -/
  failed : x.1 ∈ (missing resident (l.map Prod.fst)).drop e.freePages.length →
    res.lookup x.1 = some none

/-- A block after the head of the batch: the head takes one of the free pages when it is missing. -/
lemma mem_take_missing_cons {resident : ℤ → Bool} {l : List ℤ} {blk b : ℤ} {f f1 : ℕ}
    (hf : f1 = if resident blk then f else f - 1) (hne : b ≠ blk)
    (hb : b ∈ (missing resident (blk :: l)).take f) : b ∈ (missing resident l).take f1 := by
  rw [hf]
  cases hr : resident blk with
  | true => rwa [missing_cons_resident l hr] at hb
  | false =>
      rw [missing_cons_missing l hr] at hb
      cases f with
      | zero => cases hb
      | succ f =>
          rw [List.take_succ_cons] at hb
          exact (List.mem_cons.mp hb).resolve_left hne

lemma mem_drop_missing_cons {resident : ℤ → Bool} {l : List ℤ} {blk b : ℤ} {f f1 : ℕ}
    (hf : f1 = if resident blk then f else f - 1) (hne : b ≠ blk)
    (hb : b ∈ (missing resident (blk :: l)).drop f) : b ∈ (missing resident l).drop f1 := by
  rw [hf]
  cases hr : resident blk with
  | true => rwa [missing_cons_resident l hr] at hb
  | false =>
      rw [missing_cons_missing l hr] at hb
      cases f with
      | zero =>
          rw [List.drop_zero] at hb
          exact (List.mem_cons.mp hb).resolve_left hne
      | succ f => rwa [List.drop_succ_cons] at hb

/-- The page that the block at the head gets, and how many are left. -/
lemma Allocated.freePages_length {blk : ℤ} {bd : BlockData} {tbl' : PageTable} {page : Option ℕ}
    (hA : Allocated cfg e d tbl cid blk bd e' d' tbl' page) (hno : NoEviction cfg e tbl cid blk bd)
    (hknown : ∀ q, tbl q = some (cid, blk) → bd.pageId = some q) {r : Bool}
    (hr : r = true ↔ ∃ p, tbl p = some (cid, blk)) :
    e'.freePages.length = if r then e.freePages.length else e.freePages.length - 1 := by
  have hnot : (∀ q, bd.pageId = some q → tbl q ≠ some (cid, blk)) → ¬ r = true := fun hb hc => by
    obtain ⟨q, hq⟩ := hr.mp hc
    exact hb q (hknown q hq) hq
  cases hA with
  | update p _ hp _ hU => rw [hr.mpr ⟨p, hp⟩, if_pos rfl, hU.freePages]
  | fresh p hb hlast hfree hR1 hS =>
      rw [if_neg (hnot hb), hS.freePages]
      exact List.length_dropLast
  | evict _ _ _ hb hnil hl _ _ _ => exact (hno.elim hb hnil hl).elim
  | full hb hnil _ => rw [if_neg (hnot hb), hnil, List.length_nil]

/-- What the block at the head of a batch becomes, when the rest of the loop leaves its page and its
result alone. -/
lemma Allocated.filled {blk : ℤ} {bd : BlockData} {tbl1 : PageTable} {page : Option ℕ}
    {e1 : Engine} {d1 : Disk} (hA : Allocated cfg e d tbl cid blk bd e1 d1 tbl1 page)
    (hno : NoEviction cfg e tbl cid blk bd)
    (hknown : ∀ q, tbl q = some (cid, blk) → bd.pageId = some q) {resident : ℤ → Bool}
    (hr : resident blk = true ↔ ∃ p, tbl p = some (cid, blk)) {l : List (ℤ × BlockData)}
    (hnd : blk ∉ l.map Prod.fst) {res : Map ℤ (Option ℕ)} (hpage : res.lookup blk = some page)
    (hstays : ∀ p, tbl1 p = some (cid, blk) → e'.searchIndex p = e1.searchIndex p) :
    Filled cfg e tbl cid resident ((blk, bd) :: l) e' res (blk, bd) := by
  have hnot : (∀ q, bd.pageId = some q → tbl q ≠ some (cid, blk)) → ¬ resident blk = true := by
    intro hb hc
    obtain ⟨q, hq⟩ := hr.mp hc
    exact hb q (hknown q hq) hq
  cases hA with
  | update p _ hp _ hU =>
      have hmiss := missing_cons_resident (l.map Prod.fst) (hr.mpr ⟨p, hp⟩)
      refine ⟨fun _ => ⟨p, hp, hpage, ?_⟩, fun hm => ?_, fun hm => ?_⟩
      · rw [hstays p hp, hU.searchIndex, Function.update_self]
      · rw [List.map_cons, hmiss] at hm
        exact (hnd (mem_of_mem_missing (List.mem_of_mem_take hm))).elim
      · rw [List.map_cons, hmiss] at hm
        exact (hnd (mem_of_mem_missing (List.mem_of_mem_drop hm))).elim
  | fresh p hb hlast hfree hR1 hS =>
      have hmiss := missing_cons_missing (l.map Prod.fst) (Bool.eq_false_iff.mpr (hnot hb))
      have hnew : e'.searchIndex p
          = storedPage cfg (e.searchIndex p) cid blk bd.data bd.len bd.offStart := by
        rw [hstays p (Function.update_self _ _ _), hS.searchIndex, Function.update_self]
      refine ⟨fun hc => absurd hc (hnot hb),
        fun _ => ⟨p, e.searchIndex p, hfree, hpage, hnew⟩, fun hm => ?_⟩
      -- a page is free, so that the head is not among the blocks left over
      rw [List.map_cons, hmiss] at hm
      cases hf : e.freePages with
      | nil => rw [hf] at hlast; cases hlast
      | cons y ys =>
          rw [hf, List.length_cons, List.drop_succ_cons] at hm
          exact (hnd (mem_of_mem_missing (List.mem_of_mem_drop hm))).elim
  | evict _ _ _ hb hnil hl _ _ _ => exact (hno.elim hb hnil hl).elim
  | full hb hnil _ =>
      refine ⟨fun hc => absurd hc (hnot hb), fun hm => ?_, fun _ => hpage⟩
      rw [hnil, List.length_nil, List.take_zero] at hm
      cases hm

/-- **The loop of `allocate_blocks`** stores the first missing blocks, as many as there are free
pages. -/
theorem Batch.filled (h : OnePage cfg) (hcid : cid ≠ "none") {l : List (ℤ × BlockData)}
    (hB : Batch cfg e tbl cid l) (hl : cfg.applyLruEviction = false) (resident : ℤ → Bool)
    (hr : ∀ x ∈ l, resident x.1 = true ↔ ∃ p, tbl p = some (cid, x.1)) {res res' : Map ℤ (Option ℕ)}
    (hres : ∀ x ∈ l, res.lookup x.1 = none)
    (hloop : allocateLoop cfg cid op l e d res = some (e', d', res')) :
    ∀ x ∈ l, Filled cfg e tbl cid resident l e' res' x := by
  induction l generalizing e d tbl res with
  | nil => exact fun x hx => (List.not_mem_nil hx).elim
  | cons y l ih =>
      obtain ⟨blk, bd⟩ := y
      have hnd := hB.nodup
      rw [List.map_cons, List.nodup_cons] at hnd
      have hne : ∀ z ∈ l, z.1 ≠ blk := fun z hz heq => hnd.1 (List.mem_map.mpr ⟨z, hz, heq⟩)
      have hno1 : NoEviction cfg e tbl cid blk bd := noEviction_of_off hl
      have hknown1 := hB.known _ List.mem_cons_self
      have hr0 := hr _ List.mem_cons_self
      obtain ⟨e1, d1, page, tbl1, ha, hA⟩ :=
        hB.rep.allocateBlock_noEviction h hB.exact hcid hno1 d op
      simp only [allocateLoop, Option.bind_eq_bind, ha, Option.bind_some] at hloop
      have hres1 : ∀ z ∈ l, (res.insertNew blk page).lookup z.1 = none := fun z hz => by
        rw [Map.lookup_insertNew_ne _ _ (hne z hz)]
        exact hres z (List.mem_cons_of_mem _ hz)
      have hoth : ∀ z ∈ l, ∀ q, (tbl1 q = some (cid, z.1) ↔ tbl q = some (cid, z.1)) ∧
          (tbl q = some (cid, z.1) → e1.searchIndex q = e.searchIndex q) := fun z hz q =>
        hA.others hno1 (.inr (hne z hz))
      have ih1 := ih (hB.tail hA) (fun z hz => by
        rw [hr z (List.mem_cons_of_mem _ hz)]
        exact exists_congr fun q => (hoth z hz q).1.symm) hres1 hloop
      -- the block keeps its page and its result in the rest of the loop
      obtain ⟨e2, tbl2, res2, hloop2, hP, hkeep⟩ := (hB.tail hA).placed h hcid op d1 _ hres1
      rw [hloop, Option.some.injEq, Prod.mk.injEq, Prod.mk.injEq] at hloop2
      obtain ⟨rfl, -, rfl⟩ := hloop2
      have hpage : res'.lookup blk = some page := by
        rw [hkeep _ hnd.1, Map.lookup_insertNew, if_pos rfl, hres _ List.mem_cons_self]
        rfl
      intro x hx
      rcases List.mem_cons.mp hx with rfl | hx
      · exact hA.filled hno1 hknown1 hr0 hnd.1 hpage fun p hp =>
          (hP.others p cid blk (.inr hnd.1)).2 hp
      · -- a block of the tail, seen from before the head
        have hfree := hA.freePages_length hno1 hknown1 hr0
        refine ⟨fun hrx => ?_,
          fun hm => (ih1 x hx).stored (mem_take_missing_cons hfree (hne x hx) hm),
          fun hm => (ih1 x hx).failed (mem_drop_missing_cons hfree (hne x hx) hm)⟩
        obtain ⟨p, h1, h2, h3⟩ := (ih1 x hx).updated hrx
        have hp := (hoth x hx p).1.mp h1
        exact ⟨p, hp, h2, by rw [h3, (hoth x hx p).2 hp]⟩

end Engine

/-! ### The loop of `put_data_blocks` -/

/-- A readable end given to the engine changes no byte and no flag of a page. -/
lemma Engine.searchIndex_makeBlockReadableToOffset {e e' : Engine} {o : String} {p : ℕ} {b r : ℤ}
    (h : e.makeBlockReadableToOffset cfg o p b r = some e') (q : ℕ) :
    (e'.searchIndex q).data = (e.searchIndex q).data ∧
      (e'.searchIndex q).isDirty = (e.searchIndex q).isDirty := by
  rw [makeBlockReadableToOffset, Option.bind_eq_bind, Option.bind_eq_some_iff] at h
  obtain ⟨pg, hpg, h⟩ := h
  have hpgeq : e.searchIndex p = pg := by
    rw [getPagePtr] at hpg
    split_ifs at hpg
    exact Option.some.inj hpg
  split_ifs at h
  · rw [Option.some.injEq] at h
    rw [← h]
    by_cases hq : q = p
    · rw [hq, searchIndex_setPage_self, hpgeq]
      exact ⟨rfl, rfl⟩
    · rw [searchIndex_setPage_ne _ _ hq]
      exact ⟨rfl, rfl⟩
  · rw [Option.some.injEq] at h
    rw [← h]
    exact ⟨rfl, rfl⟩

/-- The block infos after the loop of `put_data_blocks` over the allocations. -/
structure PutInfos (blocks : Map ℤ BlockPut) (l : List (ℤ × Option ℕ)) (it it' : Item)
    (e e' : Engine) : Prop where
  placed : ∀ b p, (b, some p) ∈ l → ∃ bp, blocks.lookup b = some bp ∧
    it'.data.blocks.lookup b = (it.data.setBlockPageId b p bp.rsTo).1.blocks.lookup b
  failed : ∀ b, (b, none) ∈ l → it'.data.blocks.lookup b = none
  others : ∀ b, b ∉ l.map Prod.fst → it'.data.blocks.lookup b = it.data.blocks.lookup b
  pages : ∀ q, (e'.searchIndex q).data = (e.searchIndex q).data ∧
    (e'.searchIndex q).isDirty = (e.searchIndex q).isDirty

/-- **The loop of `put_data_blocks`** records the pages and drops the blocks without one. -/
theorem putLoop_infos {cid : String} (blocks : Map ℤ BlockPut) {l : List (ℤ × Option ℕ)}
    (hnd : (l.map Prod.fst).Nodup) {it it' : Item} {e e' : Engine} {res res' : Map ℤ Bool}
    {any any' : Bool} (h : Cache.putLoop cfg cid blocks l it e res any
      = some (it', e', res', any')) :
    PutInfos blocks l it it' e e' := by
  induction l generalizing it e res any with
  | nil =>
      rw [Cache.putLoop, Option.some.injEq, Prod.mk.injEq, Prod.mk.injEq, Prod.mk.injEq] at h
      obtain ⟨rfl, rfl, -⟩ := h
      exact ⟨fun _ _ hm => (List.not_mem_nil hm).elim, fun _ hm => (List.not_mem_nil hm).elim,
        fun _ _ => rfl, fun _ => ⟨rfl, rfl⟩⟩
  | cons x l ih =>
      obtain ⟨bid, page⟩ := x
      rw [List.map_cons, List.nodup_cons] at hnd
      have hne : ∀ b v, (b, v) ∈ l → b ≠ bid := by
        rintro b v hm rfl
        exact hnd.1 (List.mem_map.mpr ⟨_, hm, rfl⟩)
      rw [Cache.putLoop, Option.bind_eq_bind, Option.bind_eq_some_iff] at h
      obtain ⟨bp, hbp, h⟩ := h
      cases page with
      | none =>
          -- no page was found for the first block, and the item drops it
          have hI := ih hnd.2 h
          have hdrop : ∀ b, b ≠ bid → (it.data.removeBlock bid).blocks.lookup b
              = it.data.blocks.lookup b := fun b hb => by
            rw [Data.removeBlock, Map.lookup_erase', if_neg hb]
          refine ⟨fun b p hm => ?_, fun b hm => ?_, fun b hb => ?_, hI.pages⟩
          · rcases List.mem_cons.mp hm with heq | hm
            · cases heq
            · obtain ⟨bp', h1, h2⟩ := hI.placed b p hm
              refine ⟨bp', h1, ?_⟩
              rw [h2]
              simp only [Data.setBlockPageId, Map.lookup_set_self, hdrop b (hne b _ hm)]
          · rcases List.mem_cons.mp hm with heq | hm
            · rw [Prod.mk.injEq] at heq
              rw [heq.1, hI.others bid hnd.1]
              simp only [Data.removeBlock, Map.lookup_erase', if_pos]
            · exact hI.failed b hm
          · rw [List.map_cons, List.mem_cons, not_or] at hb
            rw [hI.others b hb.2]
            exact hdrop b hb.1
      | some p0 =>
          dsimp only at h
          rw [Option.bind_eq_bind, Option.bind_eq_some_iff] at h
          obtain ⟨e1, he1, h⟩ := h
          -- it was put in the page `p0`
          have hI := ih hnd.2 h
          have hkeep : ∀ b, b ≠ bid → (it.data.setBlockPageId bid p0 bp.rsTo).1.blocks.lookup b
              = it.data.blocks.lookup b := fun b hb => Map.lookup_set_ne _ _ hb
          refine ⟨fun b p hm => ?_, fun b hm => ?_, fun b hb => ?_, fun q => ?_⟩
          · rcases List.mem_cons.mp hm with heq | hm
            · rw [Prod.mk.injEq, Option.some.injEq] at heq
              obtain ⟨rfl, rfl⟩ := heq
              exact ⟨bp, hbp, hI.others b hnd.1⟩
            · obtain ⟨bp', h1, h2⟩ := hI.placed b p hm
              refine ⟨bp', h1, ?_⟩
              rw [h2]
              simp only [Data.setBlockPageId, Map.lookup_set_self]
              rw [← hkeep b (hne b _ hm)]
              rfl
          · rcases List.mem_cons.mp hm with heq | hm
            · cases heq
            · exact hI.failed b hm
          · rw [List.map_cons, List.mem_cons, not_or] at hb
            rw [hI.others b hb.2]
            exact hkeep b hb.1
          · obtain ⟨h1, h2⟩ := hI.pages q
            obtain ⟨h3, h4⟩ := searchIndex_makeBlockReadableToOffset he1 q
            exact ⟨h1.trans h3, h2.trans h4⟩

/-! ### The whole put -/

/-- `v'` is the block `v` after the bytes of a put are written into it. -/
structure BlockPut.Into (cfg : Config) (bp : BlockPut) (v v' : BlockView) : Prop where
  readableTo : v'.readableTo = max v.readableTo bp.rsTo
  dirty : v'.dirty = true
  bytes : ∀ start : ℕ, bp.offStart = start → start + bp.len ≤ cfg.ioBlockSize →
    v'.bytes = Bytes.write v.bytes start (bp.data.read 0 bp.len)

namespace Cache

variable {c c' : Cache} {tbl tbl' : PageTable} {cid : String}

/-- The info of a block in its item. -/
def blockInfo (c : Cache) (o : String) (b : ℤ) : Option BlockInfo :=
  (c.contents.lookup o).bind fun it => it.data.blocks.lookup b

/-- The page that the item names for a block. -/
def pageOf (c : Cache) (o : String) (b : ℤ) : Option ℕ :=
  (c.blockInfo o b).bind BlockInfo.pageIndexNumber

/-- The block is neither in the item nor in the engine. -/
structure Absent (cfg : Config) (c : Cache) (o : String) (b : ℤ) : Prop where
  item : c.blockInfo o b = none
  entry : c.engine.entry o b = none
  pages : ∀ p, c.engine.isBlockCached cfg o (some p) b = false

/-- The blocks of a batch that are not resident, in ascending order. -/
def missing (cfg : Config) (c : Cache) (cid : String) (blocks : Map ℤ BlockPut) : List ℤ :=
  Engine.missing (c.isBlockCached cfg cid) (blocks.sorted.map Prod.fst)

/-- What a put makes of a cache, when some of its blocks may find no page. -/
structure PutExact (cfg : Config) (c : Cache) (cid : String) (blocks : Map ℤ BlockPut) (c' : Cache)
    (res : Map ℤ Bool) : Prop where
  keys : ∀ b, (res.lookup b).isSome ↔ (blocks.lookup b).isSome
  /-- A resident block is updated where it is. -/
  updated : ∀ b bp v, blocks.lookup b = some bp → c.view cfg cid b = some v →
    res.lookup b = some true ∧ c'.pageOf cid b = c.pageOf cid b ∧
      ∃ v', c'.view cfg cid b = some v' ∧ bp.Into cfg v v'
  /-- The lowest-numbered others are stored, as many as there are free pages. -/
  stored : ∀ b bp, blocks.lookup b = some bp →
    b ∈ (c.missing cfg cid blocks).take c.engine.freePages.length →
    res.lookup b = some true ∧ ∃ v', c'.view cfg cid b = some v' ∧
    bp.Into cfg (.zero cfg.ioBlockSize) v'
  failed : ∀ b, b ∈ (c.missing cfg cid blocks).drop c.engine.freePages.length →
    res.lookup b = some false ∧ c'.Absent cfg cid b
  /-- A block that is not in the batch keeps its page and its readable end, and its page is as it
  was. -/
  others : ∀ o b, (o ≠ cid ∨ blocks.lookup b = none) → c'.blockInfo o b = c.blockInfo o b ∧
    ∀ p, c.pageOf o b = some p → c'.engine.searchIndex p = c.engine.searchIndex p
  inv : c'.RepInv cfg

/-- Two ascending lists of the same numbers are equal. -/
lemma eq_of_ascending {l l' : List ℤ} (h : l.Pairwise (· < ·)) (h' : l'.Pairwise (· < ·))
    (hm : ∀ b, b ∈ l ↔ b ∈ l') : l = l' :=
  ((List.perm_ext_iff_of_nodup (h.imp ne_of_lt) (h'.imp ne_of_lt)).mpr hm).eq_of_pairwise
    (fun _ _ _ _ h1 h2 => absurd h1 (lt_asymm h2)) h h'

/-- The blocks of a map in ascending order. -/
lemma ascending_sorted {α : Type} (m : Map ℤ α) : (m.sorted.map Prod.fst).Pairwise (· < ·) :=
  List.pairwise_map.mpr (Map.sorted_lt m)

/-- The block that `put_data_blocks` hands to the engine. -/
lemma PutStart.lookup_mapping {blocks : Map ℤ BlockPut} {c1 : Cache} {it : Item}
    {m : Map ℤ BlockData} (hS : PutStart cfg c tbl cid blocks c1 it m) {b : ℤ} {bp : BlockPut}
    (hb : blocks.lookup b = some bp) :
    ∃ page, (b, ⟨page, bp.data, bp.len, bp.offStart⟩) ∈ m.sorted := by
  have hb' : b ∈ m.sorted.map Prod.fst :=
    (hS.mem b).mpr (List.mem_map.mpr ⟨(b, bp), Map.mem_sorted.mpr hb, rfl⟩)
  obtain ⟨⟨b', bd⟩, hbd, rfl⟩ := List.mem_map.mp hb'
  have hlook := Map.mem_sorted.mp hbd
  rw [hS.mapping] at hlook
  rcases (lookup_putMapping it _ blocks.sorted ∅ b').2 bd hlook with h1 | ⟨bp', h1, rfl⟩
  · rw [AList.lookup_empty] at h1
    cases h1
  · rw [Map.mem_sorted, hb, Option.some.injEq] at h1
    subst h1
    exact ⟨_, hbd⟩

/-- A block is resident when it is in a page. -/
lemma Good.isBlockCached_iff_tbl (hG : c.Good cfg tbl) {b : ℤ} :
    c.isBlockCached cfg cid b = true ↔ ∃ p, tbl p = some (cid, b) := by
  rw [hG.isBlockCached_eq, hG.isSome_view_iff]

/-- A block without an info is absent. -/
lemma Good.absent (hG : c.Good cfg tbl) {b : ℤ} (hb : c.blockInfo cid b = none) :
    c.Absent cfg cid b := by
  have hp : ∀ p, tbl p ≠ some (cid, b) := by
    intro p hp
    obtain ⟨it, info, hit, hinfo, -⟩ := hG.view_of_tbl hp
    rw [blockInfo, hit, Option.bind_some, hinfo] at hb
    cases hb
  refine ⟨hb, ?_, fun p => hG.rep.isBlockCached_eq_false fun q hq => ?_⟩
  · by_contra hne
    obtain ⟨en, hen⟩ := Option.ne_none_iff_exists'.mp hne
    exact hp _ (hG.exact.of_entry cid b en hen).1
  · exact hp q

/-- The page that an item names holds the block. -/
lemma Good.tbl_of_pageOf (hG : c.Good cfg tbl) {b : ℤ} {p : ℕ} (hp : c.pageOf cid b = some p) :
    tbl p = some (cid, b) := by
  obtain ⟨info, hinfo, hp⟩ := Option.bind_eq_some_iff.mp hp
  obtain ⟨it, hit, hinfo⟩ := Option.bind_eq_some_iff.mp hinfo
  obtain ⟨q, hq, htq⟩ := (hG.items cid it hit).infos b info hinfo (by simp)
  rw [hp, Option.some.injEq] at hq
  exact hq ▸ htq

/-- The infos of the item at the start of a put. -/
lemma PutStart.lookup_blocks {blocks : Map ℤ BlockPut} {c1 : Cache} {it : Item}
    {m : Map ℤ BlockData} (hS : PutStart cfg c tbl cid blocks c1 it m) (b : ℤ) :
    it.data.blocks.lookup b = c.blockInfo cid b := by
  rw [hS.item_eq, blockInfo]
  cases c.contents.lookup cid with
  | none => exact AList.lookup_empty b
  | some it0 => rfl

/-- The end of a put whose batch is `l`: the engine `e1` has given the pages of `alloc`, the item
names them, and the result says which blocks have one. -/
structure PutEnd (cfg : Config) (c : Cache) (tbl : PageTable) (cid : String)
    (blocks : Map ℤ BlockPut) (l : List (ℤ × BlockData)) (e1 : Engine) (alloc : Map ℤ (Option ℕ))
    (c' : Cache) (res : Map ℤ Bool) : Prop where
  ids : l.map Prod.fst = blocks.sorted.map Prod.fst
  handed : ∀ b bp, blocks.lookup b = some bp →
    ∃ page, (b, ⟨page, bp.data, bp.len, bp.offStart⟩) ∈ l
  filled : ∀ x ∈ l,
    Filled cfg c.engine tbl cid (c.isBlockCached cfg cid) l e1 alloc x
  keys : ∀ b, (alloc.lookup b).isSome ↔ (blocks.lookup b).isSome
  result : ∀ b, res.lookup b = (alloc.lookup b).map Option.isSome
  placed : ∀ b bp p, blocks.lookup b = some bp → alloc.lookup b = some (some p) →
    c'.pageOf cid b = some p ∧ c'.view cfg cid b
      = some ⟨(e1.searchIndex p).data.read 0 cfg.ioBlockSize,
          max ((c.blockInfo cid b).getD .new).readableOffset.2 bp.rsTo,
            (e1.searchIndex p).isDirty⟩
  failed : ∀ b, alloc.lookup b = some none → c'.blockInfo cid b = none
  others : ∀ b, blocks.lookup b = none → c'.blockInfo cid b = c.blockInfo cid b

/-- The two loops of a put, one after the other. -/
lemma Good.putEnd (h : OnePage cfg) (hl : cfg.applyLruEviction = false) (hG : c.Good cfg tbl)
    (hcid : cid ≠ "none") (blocks : Map ℤ BlockPut) (op : AllocateOperationType) (d : Disk)
    {res : Map ℤ Bool} (hput : c.putDataBlocks cfg d cid blocks op = some (c', d, res)) :
    ∃ l e1 alloc, PutEnd cfg c tbl cid blocks l e1 alloc c' res := by
  obtain ⟨c1, it, m, hS⟩ := hG.putStart cid blocks (fun h => by rw [hl] at h; cases h)
    fun _ _ h => by rw [hl] at h; cases h
  -- the loop of the engine
  obtain ⟨e1, tbl1, alloc, hloop, hP, hkeys⟩ := hS.batch.placed h hcid op d ∅
    fun x _ => AList.lookup_empty x.1
  have hids : m.sorted.map Prod.fst = blocks.sorted.map Prod.fst :=
    eq_of_ascending (ascending_sorted m) (ascending_sorted blocks) hS.mem
  have hfill := hS.batch.filled h hcid hl (c.isBlockCached cfg cid)
    (fun x _ => hG.isBlockCached_iff_tbl) (fun x _ => AList.lookup_empty x.1) hloop
  rw [hS.engine] at hfill
  have hkey : ∀ b, (alloc.lookup b).isSome ↔ (blocks.lookup b).isSome := fun b => by
    rw [← Map.mem_map_fst_sorted (m := blocks), ← hids]
    constructor
    · intro hb
      by_contra hnot
      rw [hkeys b hnot, AList.lookup_empty] at hb
      cases hb
    · intro hb
      obtain ⟨page, hpage, -⟩ := hP.placed b hb
      rw [hpage]
      rfl
  -- the loop over the pages that it has given
  simp only [Cache.putDataBlocks, ← hS.start, Option.bind_eq_bind, hS.item, Option.bind_some,
    allocateBlocks, ← hS.mapping, hloop, Option.bind_eq_some_iff] at hput
  obtain ⟨⟨it', e2, res2, any⟩, hput, heq⟩ := hput
  rw [Option.some.injEq, Prod.mk.injEq, Prod.mk.injEq] at heq
  obtain ⟨hc', -, rfl⟩ := heq
  have hnd := Map.nodup_map_fst_sorted alloc
  have hI := putLoop_infos blocks hnd hput
  obtain ⟨-, -, -, -, hres, hno⟩ :=
    putLoop_marks blocks hnd (fun x _ => AList.lookup_empty x.1) hput
  have hengine : c'.engine = e2 := by rw [← hc']
  obtain ⟨it2, hit2, hdata⟩ : ∃ it2, c'.contents.lookup cid = some it2 ∧ it2.data = it'.data := by
    rw [← hc']
    refine ⟨_, by rw [Cache.setItem]; exact Map.lookup_set_self _ _ _, ?_⟩
    split_ifs <;> rfl
  have hinfo : ∀ b, c'.blockInfo cid b = it'.data.blocks.lookup b := fun b => by
    rw [blockInfo, hit2, Option.bind_some, hdata]
  refine ⟨m.sorted, e1, alloc, hids, fun b bp hb => hS.lookup_mapping hb, hfill, hkey, fun b => ?_,
    fun b bp p hb hp => ?_, fun b hb => ?_, fun b hb => ?_⟩
  · cases hb : alloc.lookup b with
    | none =>
        have hout : b ∉ alloc.sorted.map Prod.fst := by
          rw [Map.mem_map_fst_sorted, hb]
          exact Bool.false_ne_true
        exact (hno b hout).trans (AList.lookup_empty b)
    | some page => exact hres (b, page) (Map.mem_sorted.mpr hb)
  · obtain ⟨bp', hb', hlook⟩ := hI.placed b p (Map.mem_sorted.mpr hp)
    rw [hb, Option.some.injEq] at hb'
    subst hb'
    rw [Data.setBlockPageId, Map.lookup_set_self, hS.lookup_blocks] at hlook
    have hpage : ∀ info : BlockInfo,
        ((info.setPageIndexNumber p).makeReadableTo bp.rsTo).pageIndexNumber = some p :=
      fun info => by rw [pageIndexNumber_makeReadableTo]; rfl
    refine ⟨by rw [pageOf, hinfo, hlook, Option.bind_some, hpage], ?_⟩
    obtain ⟨h1, h2⟩ := hI.pages p
    rw [view_of_lookup hit2, Item.view, hdata, hlook, Option.bind_some, hpage, Option.map_some,
      Engine.blockAt, hengine, h1, h2, readableOffset_makeReadableTo]
    rfl
  · rw [hinfo]
    exact hI.failed _ (Map.mem_sorted.mpr hb)
  · have hout : b ∉ alloc.sorted.map Prod.fst := by
      rw [Map.mem_map_fst_sorted, hkey, hb]
      exact Bool.false_ne_true
    rw [hinfo, hI.others b hout, hS.lookup_blocks]

section PutEnd

variable {blocks : Map ℤ BlockPut} {l : List (ℤ × BlockData)} {e1 : Engine}
  {alloc : Map ℤ (Option ℕ)} {res : Map ℤ Bool} {b : ℤ} {bp : BlockPut}

/-- A block of the batch that was resident. -/
lemma PutEnd.updated (h : OnePage cfg) (hG : c.Good cfg tbl)
    (hE : PutEnd cfg c tbl cid blocks l e1 alloc c' res) (hb : blocks.lookup b = some bp)
    {v : BlockView} (hv : c.view cfg cid b = some v) :
    res.lookup b = some true ∧ c'.pageOf cid b = c.pageOf cid b ∧
      ∃ v', c'.view cfg cid b = some v' ∧ bp.Into cfg v v' := by
  obtain ⟨it0, info, p, hit0, hinfo0, hpi, htp, rfl⟩ := hG.exists_of_view hv
  have hinfo1 : c.blockInfo cid b = some info := by rw [blockInfo, hit0, Option.bind_some, hinfo0]
  obtain ⟨page, hx⟩ := hE.handed b bp hb
  obtain ⟨q, htq, hq, hsq⟩ := (hE.filled _ hx).updated (hG.isBlockCached_iff_tbl.mpr ⟨p, htp⟩)
  obtain rfl := hG.tbl_inj htp htq
  obtain ⟨h2, h3⟩ := hE.placed b bp p hb hq
  have hpg : e1.searchIndex p = { (c.engine.searchIndex p) with
      isDirty := true
      data := memcpy (c.engine.searchIndex p).data bp.offStart bp.data 0 bp.len } := by
    rw [hsq, (hG.rep.usedPage htp).updateBlockData h.two_le]
  refine ⟨by rw [hE.result, hq]; rfl, by rw [h2, pageOf, hinfo1, Option.bind_some, hpi], _, h3,
    by rw [hinfo1]; rfl, by rw [hpg], fun start hstart hfit => ?_⟩
  rw [hpg]
  dsimp only
  rw [hstart, read_memcpy _ _ _ hfit]
  rfl

/-- A block of the batch that finds a free page. -/
lemma PutEnd.stored (hG : c.Good cfg tbl) (hE : PutEnd cfg c tbl cid blocks l e1 alloc c' res)
    (hb : blocks.lookup b = some bp)
    (hm : b ∈ (c.missing cfg cid blocks).take c.engine.freePages.length) :
    res.lookup b = some true ∧ ∃ v', c'.view cfg cid b = some v' ∧
      bp.Into cfg (.zero cfg.ioBlockSize) v' := by
  obtain ⟨page, hx⟩ := hE.handed b bp hb
  rw [missing, ← hE.ids] at hm
  have hmem := (List.mem_filter.mp (List.mem_of_mem_take hm)).2
  rw [Bool.not_eq_true'] at hmem
  obtain ⟨p, pg, hfree, hp, hsp⟩ := (hE.filled _ hx).stored hm
  obtain ⟨-, h3⟩ := hE.placed b bp p hb hp
  -- the readable end starts from nothing, since no info of the block was left
  have hinfo : c.blockInfo cid b = none := by
    by_contra hne
    obtain ⟨info, hinfo1⟩ := Option.ne_none_iff_exists'.mp hne
    obtain ⟨it0, hit0, hinfo0⟩ := Option.bind_eq_some_iff.mp hinfo1
    obtain ⟨q, -, htq⟩ := (hG.items cid it0 hit0).infos b info hinfo0 (by simp)
    rw [hG.isBlockCached_iff_tbl.mpr ⟨q, htq⟩] at hmem
    cases hmem
  refine ⟨by rw [hE.result, hp]; rfl, _, h3, by rw [hinfo]; rfl, by rw [hsp]; rfl,
    fun start hstart hfit => ?_⟩
  rw [hsp]
  dsimp only
  rw [hstart, hfree.toBarePage.read_storedPage hfit]
  rfl

/-- A block of the batch that finds no page. -/
lemma PutEnd.dropped (hG' : c'.Good cfg tbl')
    (hE : PutEnd cfg c tbl cid blocks l e1 alloc c' res)
    (hm : b ∈ (c.missing cfg cid blocks).drop c.engine.freePages.length) :
    res.lookup b = some false ∧ c'.Absent cfg cid b := by
  rw [missing, ← hE.ids] at hm
  obtain ⟨⟨b', bd⟩, hx, rfl⟩ := List.mem_map.mp (mem_of_mem_missing (List.mem_of_mem_drop hm))
  have hnone := (hE.filled _ hx).failed hm
  exact ⟨by rw [hE.result, hnone]; rfl, hG'.absent (hE.failed _ hnone)⟩

end PutEnd

/-- **A put on a cache in order**, with eviction off. -/
theorem Good.putDataBlocks_exact (h : OnePage cfg) (hl : cfg.applyLruEviction = false)
    (hG : c.Good cfg tbl) (hcid : cid ≠ "none") (blocks : Map ℤ BlockPut)
    (op : AllocateOperationType) (d : Disk) :
    ∃ c' res, c.putDataBlocks cfg d cid blocks op = some (c', d, res) ∧
    PutExact cfg c cid blocks c' res := by
  obtain ⟨c', res, tbl', hput, hok⟩ := hG.putDataBlocks h hcid blocks op d
    (fun h => by rw [hl] at h; cases h) fun _ _ h => by rw [hl] at h; cases h
  obtain ⟨l, e1, alloc, hE⟩ := hG.putEnd h hl hcid blocks op d hput
  refine ⟨c', res, hput, fun b => ?_, fun b bp v hb hv => hE.updated h hG hb hv,
    fun b bp hb hm => hE.stored hG hb hm, fun b hm => hE.dropped hok.good hm, fun o b hob => ?_,
    hok.good.repInv⟩
  · rw [hE.result, Option.isSome_map, hE.keys]
  · have hout : o ≠ cid ∨ b ∉ blocks.sorted.map Prod.fst := hob.imp_right fun hb hm => by
      rw [Map.mem_map_fst_sorted, hb] at hm
      cases hm
    refine ⟨?_, fun p hp => (hok.others p o b hout).2 (hG.tbl_of_pageOf hp)⟩
    by_cases ho : o = cid
    · rw [ho, hE.others b (hob.resolve_left (not_not.mpr ho))]
    · rw [blockInfo, blockInfo, hok.infos o ho]

end Cache

/-- **A put that runs out of pages leaves everything else intact**, after every run with eviction
off. -/
theorem putExact_of_run (h : OnePage cfg) (hl : cfg.applyLruEviction = false) (d : Disk)
    (ops : List CacheOp) (hops : ∀ op ∈ ops, op.Labelled) {cid : String} (hcid : cid ≠ "none")
    (blocks : Map ℤ BlockPut) (op : AllocateOperationType) :
    ∃ c d1 c' res, Runs.run (CacheOp.run cfg) (Cache.new cfg, d) ops = some (c, d1) ∧
      c.putDataBlocks cfg d1 cid blocks op = some (c', d1, res) ∧
      c.PutExact cfg cid blocks c' res := by
  obtain ⟨c, d1, tbl, hrun, hG⟩ := good_of_run h hl d ops hops
  obtain ⟨c', res, hput, hP⟩ := hG.putDataBlocks_exact h hl hcid blocks op d1
  exact ⟨c, d1, c', res, hrun, hput, hP⟩

/-- Two pages, one block resident, then a batch that overwrites it and asks for two more. -/
theorem putExact_of_run_tiny : ∃ c d1 c' res,
    Runs.run (CacheOp.run (.tiny 2 false)) (Cache.new (.tiny 2 false), Disk.empty)
      [.putDataBlocks "7" (Map.single 1 ⟨fun _ => 1, 4, 0, 3⟩) .opWrite] = some (c, d1) ∧
    c.putDataBlocks (.tiny 2 false) d1 "7"
      (((Map.single 0 ⟨fun _ => 2, 4, 0, 3⟩).set 1 ⟨fun _ => 3, 2, 1, 2⟩).set 5
        ⟨fun _ => 4, 4, 0, 3⟩)
      .opWrite = some (c', d1, res) ∧
    c.PutExact (.tiny 2 false) "7"
      (((Map.single 0 ⟨fun _ => 2, 4, 0, 3⟩).set 1 ⟨fun _ => 3, 2, 1, 2⟩).set 5
        ⟨fun _ => 4, 4, 0, 3⟩)
      c' res := by
  refine putExact_of_run (Config.onePage_tiny 2 false) rfl _ _ ?_ (by decide) _ _
  simp [CacheOp.Labelled]

/-- **The label of a free page** as a content id: the second put erases the entry of the first
block, and the update of that block throws. -/
theorem put_none_throws : ∃ c d1,
    Runs.run (CacheOp.run (.tiny 2 false)) (Cache.new (.tiny 2 false), Disk.empty)
      [.putDataBlocks "none" (Map.single 0 ⟨fun _ => 1, 4, 0, 3⟩) .opWrite,
        .putDataBlocks "7" (Map.single 0 ⟨fun _ => 1, 4, 0, 3⟩) .opWrite] = some (c, d1) ∧
    c.isBlockCached (.tiny 2 false) "none" 0 = true ∧
    (c.putDataBlocks (.tiny 2 false) d1 "none" (Map.single 0 ⟨fun _ => 2, 4, 0, 3⟩)
      .opWrite).isNone := by
  have hrun : ((Runs.run (CacheOp.run (.tiny 2 false)) (Cache.new (.tiny 2 false), Disk.empty)
      [.putDataBlocks "none" (Map.single 0 ⟨fun _ => 1, 4, 0, 3⟩) .opWrite,
        .putDataBlocks "7" (Map.single 0 ⟨fun _ => 1, 4, 0, 3⟩) .opWrite]).map fun s =>
      (s.1.isBlockCached (.tiny 2 false) "none" 0, (s.1.putDataBlocks (.tiny 2 false) s.2 "none"
        (Map.single 0 ⟨fun _ => 2, 4, 0, 3⟩) .opWrite).isNone)) = some (true, true) := by
          decide +kernel
  obtain ⟨⟨c, d1⟩, hs, heq⟩ := Option.map_eq_some_iff.mp hrun
  obtain ⟨h1, h2⟩ := Prod.mk.inj heq
  exact ⟨c, d1, hs, h1, h2⟩

end LazyFS
