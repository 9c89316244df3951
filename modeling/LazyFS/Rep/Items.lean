import LazyFS.Model.Cache
import LazyFS.Rep.Sync

/-!
The items against the page table, when nothing is evicted.

* `ItemOk it e tbl o pending`: the item `it` of `o` knows every block of `o` in its page and up
  to its readable end, except for the blocks of a batch that are still `pending`.
* `Cache.Good`: the engine represents the table, its entries are exact and every item is in
  order.
* `allocateLoop_good` and `putLoop_good` are the two loops of `put_data_blocks`;
  `Good.putDataBlocks`, `Good.getDataBlocks`, `Good.truncateItem`, `Good.syncOwner` and
  `Good.deleteItem` are the operations.
-/

namespace LazyFS

open Engine

/-- The item of an owner knows the pages of its blocks. -/
structure ItemOk (it : Item) (e : Engine) (tbl : PageTable) (o : String)
    (pending : List ℤ) : Prop where
  reads : ∀ p b, tbl p = some (o, b) → b ∉ pending → ∃ info,
    it.data.blocks.lookup b = some info ∧ info.pageIndexNumber = some p ∧
      ReadsTo b info.readableOffset.2 (e.searchIndex p)
  begun : ∀ p b, tbl p = some (o, b) → b ∈ pending → ∃ r, ReadsTo b r (e.searchIndex p)
  infos : ∀ b info, it.data.blocks.lookup b = some info → b ∉ pending →
    ∃ p, info.pageIndexNumber = some p ∧ tbl p = some (o, b)

/-- The cache represents the table. -/
structure Cache.Good (cfg : Config) (c : Cache) (tbl : PageTable) : Prop where
  rep : Rep cfg c.engine tbl none
  exact : Exact cfg c.engine tbl
  items : ∀ o it, c.contents.lookup o = some it → ItemOk it c.engine tbl o []
  known : ∀ p o b, tbl p = some (o, b) → (c.contents.lookup o).isSome

namespace ItemOk

variable {it : Item} {e e' : Engine} {tbl tbl' : PageTable} {o : String} {pending : List ℤ}

/-- The page of a block is the one the item knows. -/
lemma getPageId (hI : ItemOk it e tbl o []) {p : ℕ} {b : ℤ} :
    it.data.getPageId b = some p ↔ tbl p = some (o, b) := by
  constructor
  · intro h
    obtain ⟨info, hinfo, hp⟩ := Option.bind_eq_some_iff.mp h
    obtain ⟨q, hq, htq⟩ := hI.infos b info hinfo (by simp)
    rw [hp, Option.some.injEq] at hq
    exact hq ▸ htq
  · intro h
    obtain ⟨info, hinfo, hp, -⟩ := hI.reads p b h (by simp)
    rw [Data.getPageId, hinfo, Option.bind_some, hp]

/-- A change of the table and the engine away from the blocks of `o`. -/
lemma congr (hI : ItemOk it e tbl o pending)
    (ht : ∀ p b, tbl' p = some (o, b) ↔ tbl p = some (o, b)) (hs : ∀ p b, tbl p = some (o, b) →
      (e'.searchIndex p).allocatedBlockIds = (e.searchIndex p).allocatedBlockIds) :
    ItemOk it e' tbl' o pending where
  reads := fun p b hp hb => by
    rw [ht] at hp
    obtain ⟨info, h1, h2, h3⟩ := hI.reads p b hp hb
    exact ⟨info, h1, h2, by rw [ReadsTo, hs p b hp]; exact h3⟩
  begun := fun p b hp hb => by
    rw [ht] at hp
    obtain ⟨r, hr⟩ := hI.begun p b hp hb
    exact ⟨r, by rw [ReadsTo, hs p b hp]; exact hr⟩
  infos := fun b info h1 hb => by
    obtain ⟨p, h2, h3⟩ := hI.infos b info h1 hb
    exact ⟨p, h2, (ht p b).mpr h3⟩

/-- Only the blocks of the item matter. -/
lemma of_data {it' : Item} (hI : ItemOk it e tbl o pending) (h : it'.data = it.data) :
    ItemOk it' e tbl o pending where
  reads := h ▸ hI.reads
  begun := hI.begun
  infos := h ▸ hI.infos

/-- A new item of an owner without pages. -/
lemma new (h : ∀ p b, tbl p ≠ some (o, b)) : ItemOk .new e tbl o pending where
  reads := fun p b hp => absurd hp (h p b)
  begun := fun p b hp => absurd hp (h p b)
  infos := fun b info hb => by
    rw [Item.new, Data.new, AList.lookup_empty] at hb
    cases hb

end ItemOk

lemma Cache.lookup_createItem (c : Cache) (cid o : String) :
    (c.createItem cid).contents.lookup o
      = if o = cid then some ((c.contents.lookup cid).getD .new) else c.contents.lookup o :=
  Map.lookup_insertNew _ _ _ _

lemma Cache.lookup_setItem (c : Cache) (cid o : String) (it : Item) :
    (c.setItem cid it).contents.lookup o = if o = cid then some it else c.contents.lookup o :=
  Map.lookup_set _ _ _ _

namespace Cache.Good

variable {cfg : Config} {c c' : Cache} {tbl : PageTable}

/-- No block is in two pages. -/
lemma tbl_inj (hG : c.Good cfg tbl) {p q : ℕ} {o : String} {b : ℤ} (hp : tbl p = some (o, b))
    (hq : tbl q = some (o, b)) : p = q := by
  obtain ⟨it, hit⟩ := Option.isSome_iff_exists.mp (hG.known p o b hp)
  have h1 := (hG.items o it hit).getPageId.mpr hp
  rw [(hG.items o it hit).getPageId.mpr hq, Option.some.injEq] at h1
  exact h1.symm

/-- An item is replaced by one with the same blocks. -/
lemma setItem (hG : c.Good cfg tbl) {cid : String} {it it' : Item}
    (hit : c.contents.lookup cid = some it) (h : it'.data = it.data) :
    (c.setItem cid it').Good cfg tbl where
  rep := hG.rep
  exact := hG.exact
  items := fun o it1 ho => by
    rw [Cache.lookup_setItem] at ho
    split_ifs at ho with hoc
    · rw [Option.some.injEq] at ho
      subst ho hoc
      exact (hG.items o it hit).of_data h
    · exact hG.items o it1 ho
  known := fun p o b hp => by
    rw [Cache.lookup_setItem]
    split_ifs
    · rfl
    · exact hG.known p o b hp

/-- The engine and the items are what counts. -/
lemma of_eq (hG : c.Good cfg tbl) (he : c'.engine = c.engine) (hc : c'.contents = c.contents) :
    c'.Good cfg tbl :=
  ⟨he ▸ hG.rep, he ▸ hG.exact, hc ▸ he ▸ hG.items, hc ▸ hG.known⟩

lemma updateContentMetadata (hG : c.Good cfg tbl) (cid : String) (m : Metadata)
    (values : List MetaField) : (c.updateContentMetadata cid m values).Good cfg tbl := by
  rw [Cache.updateContentMetadata]
  split
  · exact hG
  · rename_i it hit
    exact hG.setItem hit rfl

/-- A new item is created. -/
lemma createItem (hG : c.Good cfg tbl) {cid : String} (hn : c.contents.lookup cid = none) :
    (c.createItem cid).Good cfg tbl where
  rep := hG.rep
  exact := hG.exact
  items := fun o it ho => by
    rw [Cache.lookup_createItem, hn, Option.getD_none] at ho
    split_ifs at ho with hoc
    · rw [Option.some.injEq] at ho
      subst ho hoc
      refine ItemOk.new fun p b hp => ?_
      have h1 := hG.known p o b hp
      rw [hn] at h1
      cases h1
    · exact hG.items o it ho
  known := fun p o b hp => by
    rw [Cache.lookup_createItem]
    split_ifs
    · rfl
    · exact hG.known p o b hp

end Cache.Good

/-! ### The loop of `allocate_blocks` -/

namespace Engine

variable {cfg : Config} {e e' : Engine} {d d' : Disk} {tbl tbl' : PageTable}
  {cid : String} {blk : ℤ}
  {b : BlockData} {op : AllocateOperationType} {page : Option ℕ}

/-- Without eviction a turn leaves every other block in its page, as it is. -/
lemma Allocated.others (hA : Allocated cfg e d tbl cid blk b e' d' tbl' page)
    (hno : NoEviction cfg e tbl cid blk b) {p : ℕ} {o : String} {b' : ℤ}
    (hne : o ≠ cid ∨ b' ≠ blk) : (tbl' p = some (o, b') ↔ tbl p = some (o, b')) ∧
      (tbl p = some (o, b') → e'.searchIndex p = e.searchIndex p) := by
  cases hA with
  | update q _ hq _ hU =>
      refine ⟨Iff.rfl, fun hp => ?_⟩
      have hpq : p ≠ q := by
        rintro rfl
        rw [hq, Option.some.injEq, Prod.mk.injEq] at hp
        rcases hne with h | h
        · exact h hp.1.symm
        · exact h hp.2.symm
      rw [hU.searchIndex, Function.update_of_ne hpq]
  | fresh q _ _ _ hR1 hS =>
      have hq : tbl q = none := (hR1.inHand q rfl).2
      by_cases hpq : p = q
      · subst hpq
        rw [Function.update_self, hq]
        refine ⟨⟨fun h => ?_, fun h => absurd h (by simp)⟩, fun h => absurd h (by simp)⟩
        rw [Option.some.injEq, Prod.mk.injEq] at h
        rcases hne with h' | h'
        · exact absurd h.1.symm h'
        · exact absurd h.2.symm h'
      · rw [Function.update_of_ne hpq, hS.searchIndex, Function.update_of_ne hpq]
        exact ⟨Iff.rfl, fun _ => rfl⟩
  | evict q o b' hb hnil hl _ _ _ => exact (hno.elim hb hnil hl).elim
  | full => exact ⟨Iff.rfl, fun _ => rfl⟩

/-- Without eviction the page reported for the block is the one that holds it. -/
lemma Allocated.self (hA : Allocated cfg e d tbl cid blk b e' d' tbl' page)
    (hno : NoEviction cfg e tbl cid blk b)
    (hknown : ∀ q, tbl q = some (cid, blk) → b.pageId = some q) (p : ℕ) :
    page = some p ↔ tbl' p = some (cid, blk) := by
  cases hA with
  | update q hb hq _ _ =>
      constructor
      · rintro h
        rw [Option.some.injEq] at h
        exact h ▸ hq
      · intro hp
        rw [← hb, hknown p hp]
  | fresh q hb _ _ _ _ =>
      by_cases hpq : p = q
      · simp [hpq]
      · have hqp : ¬ q = p := fun h => hpq h.symm
        rw [Function.update_of_ne hpq]
        refine ⟨fun h => absurd (Option.some.inj h) hqp, fun h => ?_⟩
        exact absurd h (hb p (hknown p h))
  | evict q o b' hb hnil hl _ _ _ => exact (hno.elim hb hnil hl).elim
  | full hb _ _ => exact ⟨fun h => absurd h (by simp), fun h => absurd h (hb p (hknown p h))⟩

/-- The readable end of the block: as it was, or that of a block just stored. -/
lemma Allocated.readsTo (h : OnePage cfg) (hA : Allocated cfg e d tbl cid blk b e' d' tbl' page)
    (hR : Rep cfg e tbl none) (hno : NoEviction cfg e tbl cid blk b)
    (hold : ∀ q, tbl q = some (cid, blk) → ∃ r, ReadsTo blk r (e.searchIndex q)) {p : ℕ}
    (hp : page = some p) : ∃ r, ReadsTo blk r (e'.searchIndex p) := by
  cases hA with
  | update q hb hq _ hU =>
      rw [Option.some.injEq] at hp
      subst hp
      obtain ⟨r, hr⟩ := hold q hq
      refine ⟨r, ?_⟩
      rw [hU.searchIndex, Function.update_self, (hR.usedPage hq).updateBlockData h.two_le]
      exact hr
  | fresh q _ _ _ _ hS =>
      rw [Option.some.injEq] at hp
      subst hp
      refine ⟨-1, ?_⟩
      rw [hS.searchIndex, Function.update_self]
      exact readsTo_storedPage
  | evict q o b' hb hnil hl _ _ _ => exact (hno.elim hb hnil hl).elim
  | full => cases hp

/-- The free pages after a turn without eviction. -/
lemma Allocated.freePages (hA : Allocated cfg e d tbl cid blk b e' d' tbl' page)
    (hno : NoEviction cfg e tbl cid blk b) :
    e'.freePages = e.freePages ∨ e'.freePages = e.freePages.dropLast := by
  cases hA with
  | update q hb hq _ hU => exact .inl hU.freePages
  | fresh q _ _ _ _ hS => exact .inr hS.freePages
  | evict q o b' hb hnil hl _ _ _ => exact (hno.elim hb hnil hl).elim
  | full => exact .inl rfl

lemma Allocated.disk (hA : Allocated cfg e d tbl cid blk b e' d' tbl' page)
    (hno : NoEviction cfg e tbl cid blk b) : d' = d := by
  cases hA with
  | update => rfl
  | fresh => rfl
  | evict q o b' hb hnil hl _ _ _ => exact (hno.elim hb hnil hl).elim
  | full => rfl

/-- What the loop of `allocate_blocks` does to the table: blocks outside the batch stay where and
as they are, and every block of the batch is in the page reported for it. -/
structure Placed (cfg : Config) (e : Engine) (tbl : PageTable) (cid : String) (batch : List ℤ)
    (e' : Engine) (tbl' : PageTable) (res : Map ℤ (Option ℕ)) : Prop where
  rep : Rep cfg e' tbl' none
  exact : Exact cfg e' tbl'
  others : ∀ p o b, (o ≠ cid ∨ b ∉ batch) → (tbl' p = some (o, b) ↔ tbl p = some (o, b)) ∧
    (tbl p = some (o, b) → e'.searchIndex p = e.searchIndex p)
  placed : ∀ b, b ∈ batch → ∃ page, res.lookup b = some page ∧
    (∀ p, page = some p ↔ tbl' p = some (cid, b)) ∧
    ∀ p, page = some p → ∃ r, ReadsTo b r (e'.searchIndex p)

/-- A batch of blocks of one owner that evicts nothing, each with the page it is in. -/
structure Batch (cfg : Config) (e : Engine) (tbl : PageTable) (cid : String)
    (l : List (ℤ × BlockData)) : Prop where
  rep : Rep cfg e tbl none
  exact : Exact cfg e tbl
  nodup : (l.map Prod.fst).Nodup
  len : cfg.applyLruEviction = true → l.length ≤ 1
  no : ∀ x ∈ l, NoEviction cfg e tbl cid x.1 x.2
  known : ∀ x ∈ l, ∀ q, tbl q = some (cid, x.1) → x.2.pageId = some q
  old : ∀ x ∈ l, ∀ q, tbl q = some (cid, x.1) → ∃ r, ReadsTo x.1 r (e.searchIndex q)

/-- The blocks still to come are where they were. -/
lemma Batch.tail {l : List (ℤ × BlockData)} (hB : Batch cfg e tbl cid ((blk, b) :: l))
    (hA : Allocated cfg e d tbl cid blk b e' d' tbl' page) : Batch cfg e' tbl' cid l := by
  have hnd := hB.nodup
  rw [List.map_cons, List.nodup_cons] at hnd
  have hno1 := hB.no _ List.mem_cons_self
  have hknown1 := hB.known _ List.mem_cons_self
  have hoth : ∀ y ∈ l, ∀ q, (tbl' q = some (cid, y.1) ↔ tbl q = some (cid, y.1)) ∧
      (tbl q = some (cid, y.1) → e'.searchIndex q = e.searchIndex q) := by
    intro y hy q
    refine hA.others hno1 (.inr ?_)
    rintro rfl
    exact hnd.1 (List.mem_map.mpr ⟨y, hy, rfl⟩)
  refine ⟨hA.rep hB.rep, hA.exact hB.rep hB.exact hknown1 hno1, hnd.2, fun hl => ?_,
    fun y hy hl => ?_,
    fun y hy q hq => hB.known y (List.mem_cons_of_mem _ hy) q (((hoth y hy q).1).mp hq),
    fun y hy q hq => ?_⟩
  · have := hB.len hl
    rw [List.length_cons] at this
    omega
  · have h1 := hB.len hl
    rw [List.length_cons] at h1
    have h2 := List.length_pos_of_mem hy
    omega
  · have hq' := ((hoth y hy q).1).mp hq
    rw [(hoth y hy q).2 hq']
    exact hB.old y (List.mem_cons_of_mem _ hy) q hq'

/-- A batch without eviction is placed, and nothing is thrown. -/
theorem Batch.placed (h : OnePage cfg) (hcid : cid ≠ "none") (op : AllocateOperationType)
    (d : Disk) {l : List (ℤ × BlockData)} {e : Engine} {tbl : PageTable}
    (hB : Batch cfg e tbl cid l) (res : Map ℤ (Option ℕ)) (hres : ∀ x ∈ l, res.lookup x.1 = none) :
    ∃ e' tbl' res', allocateLoop cfg cid op l e d res = some (e', d, res') ∧
      Placed cfg e tbl cid (l.map Prod.fst) e' tbl' res' ∧
      ∀ b, b ∉ l.map Prod.fst → res'.lookup b = res.lookup b := by
  induction l generalizing e tbl res with
  | nil =>
      refine ⟨e, tbl, res, rfl,
        ⟨hB.rep, hB.exact, fun _ _ _ _ => ⟨Iff.rfl, fun _ => rfl⟩, fun b hb => ?_⟩, fun _ _ => rfl⟩
      cases hb
  | cons x l ih =>
      obtain ⟨blk, bd⟩ := x
      have hnd := hB.nodup
      rw [List.map_cons, List.nodup_cons] at hnd
      have hno1 := hB.no _ List.mem_cons_self
      have hknown1 := hB.known _ List.mem_cons_self
      -- the first block gets a page
      obtain ⟨e1, d1, page, tbl1, ha, hA⟩ :=
        hB.rep.allocateBlock_noEviction h hB.exact hcid hno1 d op
      obtain rfl := hA.disk hno1
      have hself := hA.self hno1 hknown1
      -- the blocks of the tail leave it there
      obtain ⟨e', tbl', res', hloop, hP, hres'⟩ := ih (hB.tail hA) (res.insertNew blk page)
        (fun y hy => by
          rw [Map.lookup_insertNew_ne]
          · exact hres y (List.mem_cons_of_mem _ hy)
          · rintro heq
            exact hnd.1 (List.mem_map.mpr ⟨y, hy, heq⟩))
      refine ⟨e', tbl', res', ?_, ⟨hP.rep, hP.exact, fun p o b hb => ?_, fun b hb => ?_⟩,
        fun b hb => ?_⟩
      · simp only [allocateLoop, Option.bind_eq_bind, ha, Option.bind_some, hloop]
      · simp only [List.map_cons, List.mem_cons, not_or] at hb
        have hb1 : o ≠ cid ∨ b ≠ blk := hb.imp_right fun h => h.1
        have hb2 : o ≠ cid ∨ b ∉ l.map Prod.fst := hb.imp_right fun h => h.2
        obtain ⟨h1, h2⟩ := hA.others hno1 hb1 (p := p)
        obtain ⟨h3, h4⟩ := hP.others p o b hb2
        exact ⟨h3.trans h1, fun hp => (h4 (h1.mpr hp)).trans (h2 hp)⟩
      · rw [List.map_cons, List.mem_cons] at hb
        rcases hb with rfl | hb
        · refine ⟨page, ?_, fun p => ?_, fun p hp => ?_⟩
          · rw [hres' _ hnd.1, Map.lookup_insertNew, if_pos rfl, hres _ List.mem_cons_self]
            rfl
          · rw [(hP.others p cid _ (.inr hnd.1)).1]
            exact hself p
          · rw [(hP.others p cid _ (.inr hnd.1)).2 ((hself p).mp hp)]
            exact hA.readsTo h hB.rep hno1 (hB.old _ List.mem_cons_self) hp
        · exact hP.placed b hb
      · rw [List.map_cons, List.mem_cons, not_or] at hb
        rw [hres' b hb.2, Map.lookup_insertNew_ne _ _ hb.1]

end Engine

/-! ### The loop of `put_data_blocks` -/

section

variable {cfg : Config} {cid : String}

/-- One turn of the loop for a block that has a page: the item learns the page and the readable
end, and the engine learns the readable end. -/
lemma ItemOk.setBlockPageId {it : Item} {e : Engine} {tbl : PageTable} {bid : ℤ} {l : List ℤ}
    (hR : Rep cfg e tbl none) (hI : ItemOk it e tbl cid (bid :: l)) (hbid : bid ∉ l) {p : ℕ}
    (hp : tbl p = some (cid, bid)) (hinj : ∀ q, tbl q = some (cid, bid) → q = p) (rsTo : ℤ) :
    ∃ e', e.makeBlockReadableToOffset cfg cid p bid (it.data.setBlockPageId bid p rsTo).2
      = some e' ∧
      e' = e.setPage p ((e.searchIndex p).makeBlockReadableTo bid
        (it.data.setBlockPageId bid p rsTo).2) ∧
      ItemOk { it with data := (it.data.setBlockPageId bid p rsTo).1 } e' tbl cid l := by
  have hown : (e.searchIndex p).isPageOwner cid = true := by
    rw [Page.isPageOwner, (hR.usedPage hp).owner, decide_eq_true_eq]
  refine ⟨_, by simp [makeBlockReadableToOffset, hR.getPagePtr hp, hown], rfl, ?_⟩
  have hother : ∀ q b, tbl q = some (cid, b) → b ≠ bid → q ≠ p := by
    rintro q b hq hb rfl
    rw [hp, Option.some.injEq, Prod.mk.injEq] at hq
    exact hb hq.2.symm
  refine ⟨fun q b hq hb => ?_, fun q b hq hb => ?_, fun b info hinfo hb => ?_⟩
  · -- the block that is put is readable from now on
    by_cases hbb : b = bid
    · subst hbb
      obtain rfl := hinj q hq
      refine ⟨_, Map.lookup_set_self _ _ _, ?_, ?_⟩
      · rw [BlockInfo.makeReadableTo, BlockInfo.setPageIndexNumber]
        split_ifs <;> rfl
      · obtain ⟨r, hr⟩ := hI.begun q b hq List.mem_cons_self
        rw [searchIndex_setPage_self]
        exact UsedPage.readsTo_makeBlockReadableTo hr _
    · obtain ⟨info, h1, h2, h3⟩ := hI.reads q b hq (by simp [hbb, hb])
      refine ⟨info, ?_, h2, ?_⟩
      · simp only [Data.setBlockPageId]
        rw [Map.lookup_set_ne _ _ hbb, h1]
      · rw [searchIndex_setPage_ne _ _ (hother q b hq hbb)]
        exact h3
  · -- those still to be put are begun as before
    have hbb : b ≠ bid := fun h => hbid (h ▸ hb)
    rw [searchIndex_setPage_ne _ _ (hother q b hq hbb)]
    exact hI.begun q b hq (List.mem_cons_of_mem _ hb)
  · -- and the item knows nothing else
    simp only [Data.setBlockPageId, Map.lookup_set] at hinfo
    split_ifs at hinfo with hbb
    · subst hbb
      rw [Option.some.injEq] at hinfo
      refine ⟨p, ?_, hp⟩
      rw [← hinfo]
      rw [BlockInfo.makeReadableTo, BlockInfo.setPageIndexNumber]
      split_ifs <;> rfl
    · exact hI.infos b info hinfo (by simp [hbb, hb])

/-- One turn of the loop for a block that found no page. -/
lemma ItemOk.removeBlock {it : Item} {e : Engine} {tbl : PageTable} {bid : ℤ} {l : List ℤ}
    (hI : ItemOk it e tbl cid (bid :: l)) (hp : ∀ p, tbl p ≠ some (cid, bid)) :
    ItemOk { it with data := it.data.removeBlock bid } e tbl cid l := by
  refine ⟨fun q b hq hb => ?_, fun q b hq hb => hI.begun q b hq (List.mem_cons_of_mem _ hb),
    fun b info hinfo hb => ?_⟩
  · have hbb : b ≠ bid := fun h => hp q (h ▸ hq)
    obtain ⟨info, h1, h2, h3⟩ := hI.reads q b hq (by simp [hbb, hb])
    refine ⟨info, ?_, h2, h3⟩
    simp only [Data.removeBlock]
    rw [Map.lookup_erase', if_neg hbb, h1]
  · simp only [Data.removeBlock, Map.lookup_erase'] at hinfo
    split_ifs at hinfo with hbb
    exact hI.infos b info hinfo (by simp [hbb, hb])

/-- The loop of `put_data_blocks` leaves the item in order. -/
theorem putLoop_ok (blocks : Map ℤ BlockPut) (l : List (ℤ × Option ℕ))
    (hnd : (l.map Prod.fst).Nodup) (hblocks : ∀ x ∈ l, (blocks.lookup x.1).isSome) {e : Engine}
    {tbl : PageTable} (hR : Rep cfg e tbl none) (hX : Exact cfg e tbl)
    (hpage : ∀ x ∈ l, ∀ p, x.2 = some p ↔ tbl p = some (cid, x.1)) {it : Item}
    (hI : ItemOk it e tbl cid (l.map Prod.fst)) (res : Map ℤ Bool) (any : Bool) :
    ∃ it' e' res' any', Cache.putLoop cfg cid blocks l it e res any = some (it', e', res', any') ∧
      Rep cfg e' tbl none ∧ Exact cfg e' tbl ∧ ItemOk it' e' tbl cid [] ∧
      it'.metadata = it.metadata ∧ e'.freePages = e.freePages ∧ e'.lru = e.lru ∧
      ∀ p o b, tbl p = some (o, b) → o ≠ cid ∨ b ∉ l.map Prod.fst →
        e'.searchIndex p = e.searchIndex p := by
  induction l generalizing e it res any with
  | nil => exact ⟨it, e, res, any, rfl, hR, hX, hI, rfl, rfl, rfl, fun _ _ _ _ _ => rfl⟩
  | cons x l ih =>
      obtain ⟨bid, page⟩ := x
      rw [List.map_cons, List.nodup_cons] at hnd
      obtain ⟨b, hb⟩ := Option.isSome_iff_exists.mp (hblocks _ List.mem_cons_self)
      have hpage1 := hpage _ List.mem_cons_self
      have hb' : blocks.lookup bid = some b := hb
      cases page with
      | none =>
          -- no page was found for the block, and the item drops it
          have hno : ∀ p, tbl p ≠ some (cid, bid) := fun p hp => by
            have h1 := (hpage1 p).mpr hp
            cases h1
          obtain ⟨it', e', res', any', h1, h2, h3, h4, h5, h6, h7, h8⟩ := ih hnd.2
            (fun y hy => hblocks y (List.mem_cons_of_mem _ hy)) hR hX
            (fun y hy => hpage y (List.mem_cons_of_mem _ hy)) (hI.removeBlock hno)
            (res.insertNew bid false) any
          refine ⟨it', e', res', any', ?_, h2, h3, h4, h5, h6, h7, fun p o b' hp hob => ?_⟩
          · simp only [Cache.putLoop, Option.bind_eq_bind, hb', Option.bind_some, h1]
          · refine h8 p o b' hp (hob.imp_right fun h hm => h ?_)
            rw [List.map_cons]
            exact List.mem_cons_of_mem _ hm
      | some p =>
          -- the block is in the page `p`, which the item now knows
          have hp : tbl p = some (cid, bid) := (hpage1 p).mp rfl
          obtain ⟨e1, he1, heq, hI1⟩ := ItemOk.setBlockPageId hR hI hnd.1 hp
            (fun q hq => by
              have h1 := (hpage1 q).mpr hq
              simpa using h1.symm) b.rsTo
          have hu := hR.usedPage hp
          have hR1 : Rep cfg e1 tbl none := by
            rw [heq]
            exact hR.setPage hp (hu.makeBlockReadableTo _ _)
          have hX1 : Exact cfg e1 tbl := by
            rw [heq]
            exact ⟨hX.of_entry, hX.entry_of⟩
          obtain ⟨it', e', res', any', h1, h2, h3, h4, h5, h6, h7, h8⟩ := ih hnd.2
            (fun y hy => hblocks y (List.mem_cons_of_mem _ hy)) hR1 hX1
            (fun y hy => hpage y (List.mem_cons_of_mem _ hy)) hI1
            (res.insertNew bid true) true
          refine ⟨it', e', res', any', ?_, h2, h3, h4, h5, by rw [h6, heq]; rfl,
            by rw [h7, heq]; rfl, fun q o b' hq hob => ?_⟩
          · simp only [Cache.putLoop, Option.bind_eq_bind, hb', Option.bind_some, he1, h1]
          · have hqp : q ≠ p := by
              rintro rfl
              rw [hp, Option.some.injEq, Prod.mk.injEq] at hq
              obtain ⟨rfl, rfl⟩ := hq
              rcases hob with h | h
              · exact h rfl
              · exact h (by simp)
            rw [h8 q o b' hq (hob.imp_right fun h hm => h (by
              rw [List.map_cons]
              exact List.mem_cons_of_mem _ hm)), heq, searchIndex_setPage_ne _ _ hqp]

end

end LazyFS
