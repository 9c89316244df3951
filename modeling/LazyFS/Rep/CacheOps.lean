import LazyFS.Rep.Items

/-!
The operations of the cache keep it in order, when nothing is evicted: `put_data_blocks`,
`get_data_blocks`, `truncate_item`, `sync_owner`, the removal of items and the renaming of paths.
Each is a lemma `Good.…` that also says that nothing is thrown.
-/

namespace LazyFS

open Engine

variable {cfg : Config}

/-! ### `put_data_blocks` -/

/-- What `put_data_blocks` hands to the engine: for every block its data and the page the item
knows. -/
lemma lookup_putMapping (it : Item) (isNew : Bool) (l : List (ℤ × BlockPut)) (m : Map ℤ BlockData)
    (b : ℤ) :
    (((Cache.putMapping it isNew l m).lookup b).isSome ↔
        (m.lookup b).isSome ∨ b ∈ l.map Prod.fst) ∧
      ∀ bd, (Cache.putMapping it isNew l m).lookup b = some bd → m.lookup b = some bd ∨
        ∃ bp, (b, bp) ∈ l ∧ bd = ⟨if isNew then none else it.data.getPageId b, bp.data, bp.len,
          bp.offStart⟩ := by
  induction l generalizing m with
  | nil => exact ⟨by simp [Cache.putMapping], fun bd h => .inl h⟩
  | cons x l ih =>
      obtain ⟨bid, bp⟩ := x
      obtain ⟨h1, h2⟩ := ih (m.insertNew bid
        ⟨if isNew then none else it.data.getPageId bid, bp.data, bp.len, bp.offStart⟩)
      rw [Cache.putMapping]
      refine ⟨?_, fun bd hbd => ?_⟩
      · rw [h1, Map.lookup_insertNew, List.map_cons, List.mem_cons]
        by_cases hb : b = bid
        · simp [hb]
        · rw [if_neg hb]
          tauto
      · rcases h2 bd hbd with h | ⟨bp', hmem, rfl⟩
        · rw [Map.lookup_insertNew] at h
          by_cases hb : b = bid
          · rw [if_pos hb] at h
            cases hm : m.lookup bid with
            | some w =>
                rw [hm, Option.getD_some] at h
                exact .inl (by rw [hb, hm, h])
            | none =>
                rw [hm, Option.getD_none, Option.some.injEq] at h
                subst hb
                exact .inr ⟨bp, List.mem_cons_self, h.symm⟩
          · rw [if_neg hb] at h
            exact .inl h
        · exact .inr ⟨bp', List.mem_cons_of_mem _ hmem, rfl⟩

namespace Cache

variable {c c' : Cache} {tbl tbl' : PageTable}

/-- The cache before and after a batch of blocks of one content id. -/
structure PutOk (cfg : Config) (c : Cache) (tbl : PageTable) (cid : String) (batch : List ℤ)
    (c' : Cache) (tbl' : PageTable) : Prop where
  good : c'.Good cfg tbl'
  fileInodeMapping : c'.fileInodeMapping = c.fileInodeMapping
  metadata : ∀ o, c'.getContentMetadata o
    = if o = cid then some ((c.getContentMetadata cid).getD .new) else c.getContentMetadata o
  others : ∀ p o b, (o ≠ cid ∨ b ∉ batch) → (tbl' p = some (o, b) ↔ tbl p = some (o, b)) ∧
    (tbl p = some (o, b) → c'.engine.searchIndex p = c.engine.searchIndex p)
  infos : ∀ o, o ≠ cid → c'.contents.lookup o = c.contents.lookup o

/-- `put_data_blocks` up to the call of the engine: the item, which may be new, and the batch. -/
structure PutStart (cfg : Config) (c : Cache) (tbl : PageTable) (cid : String)
    (blocks : Map ℤ BlockPut) (c1 : Cache) (it : Item) (m : Map ℤ BlockData) : Prop where
  start : c1 = if (!c.hasContentCached cid) then c.createItem cid else c
  mapping : m = putMapping it (!c.hasContentCached cid) blocks.sorted ∅
  good : c1.Good cfg tbl
  engine : c1.engine = c.engine
  fileInodeMapping : c1.fileInodeMapping = c.fileInodeMapping
  item : c1.contents.lookup cid = some it
  item_eq : it = (c.contents.lookup cid).getD .new
  others : ∀ o, o ≠ cid → c1.contents.lookup o = c.contents.lookup o
  batch : Batch cfg c1.engine tbl cid m.sorted
  mem : ∀ b, b ∈ m.sorted.map Prod.fst ↔ b ∈ blocks.sorted.map Prod.fst

/-- The start of a `put_data_blocks` that evicts nothing. -/
lemma Good.putStart (hG : c.Good cfg tbl) (cid : String) (blocks : Map ℤ BlockPut)
    (hlen : cfg.applyLruEviction = true → blocks.sorted.length ≤ 1)
    (hno : ∀ b, (blocks.lookup b).isSome → cfg.applyLruEviction = true → c.engine.freePages = [] →
      ∃ p, tbl p = some (cid, b)) :
    ∃ c1 it m, PutStart cfg c tbl cid blocks c1 it m := by
  -- the item, created where there was none
  set c1 := if (!c.hasContentCached cid) then c.createItem cid else c with hc1
  have hG1 : c1.Good cfg tbl := by
    rw [hc1, hasContentCached]
    cases hn : c.contents.lookup cid with
    | none => exact hG.createItem hn
    | some it => exact hG
  have he1 : c1.engine = c.engine := by rw [hc1]; split_ifs <;> rfl
  have hmap1 : c1.fileInodeMapping = c.fileInodeMapping := by rw [hc1]; split_ifs <;> rfl
  obtain ⟨it, hit, hiteq⟩ : ∃ it, c1.contents.lookup cid = some it ∧
      it = (c.contents.lookup cid).getD .new := by
    rw [hc1, hasContentCached]
    cases hn : c.contents.lookup cid with
    | none =>
        refine ⟨.new, ?_, rfl⟩
        simp only [Option.isSome_none, Bool.not_false, if_true]
        rw [lookup_createItem, if_pos rfl, hn, Option.getD_none]
    | some it => exact ⟨it, hn, rfl⟩
  have hother1 : ∀ o, o ≠ cid → c1.contents.lookup o = c.contents.lookup o := by
    intro o ho
    rw [hc1]
    split_ifs
    · rw [lookup_createItem, if_neg ho]
    · rfl
  have hI := hG1.items cid it hit
  have hnew : ∀ b, (if (!c.hasContentCached cid) then none else it.data.getPageId b)
      = it.data.getPageId b := by
    intro b
    rw [hasContentCached]
    cases hn : c.contents.lookup cid with
    | none =>
        rw [hn, Option.getD_none] at hiteq
        rw [hiteq]
        rfl
    | some _ => rfl
  -- the batch
  set m := putMapping it (!c.hasContentCached cid) blocks.sorted ∅ with hm
  have hmkeys : ∀ b, (m.lookup b).isSome ↔ b ∈ blocks.sorted.map Prod.fst := by
    intro b
    rw [hm, (lookup_putMapping it _ blocks.sorted ∅ b).1, AList.lookup_empty]
    simp
  have hmval : ∀ b bd, m.lookup b = some bd → bd.pageId = it.data.getPageId b := by
    intro b bd hbd
    rcases (lookup_putMapping it _ blocks.sorted ∅ b).2 bd hbd with h1 | ⟨bp, -, rfl⟩
    · rw [AList.lookup_empty] at h1
      cases h1
    · exact hnew b
  have hbatch : ∀ b, b ∈ m.sorted.map Prod.fst ↔ b ∈ blocks.sorted.map Prod.fst := fun b => by
    rw [Map.mem_map_fst_sorted, hmkeys]
  refine ⟨c1, it, m, hc1, hm, hG1, he1, hmap1, hit, hiteq, hother1,
    ⟨hG1.rep, hG1.exact, Map.nodup_map_fst_sorted m, fun hl => ?_, fun x hx hl hnil => ?_,
      fun x hx q hq => ?_, fun x _ q hq => ?_⟩, hbatch⟩
  · have h1 := hlen hl
    have h2 : (m.sorted.map Prod.fst).length ≤ (blocks.sorted.map Prod.fst).length :=
      ((Map.nodup_map_fst_sorted m).subperm fun b hb => (hbatch b).mp hb).length_le
    rw [List.length_map, List.length_map] at h2
    omega
  · obtain ⟨b, bd⟩ := x
    have hb : (blocks.lookup b).isSome := by
      rw [← Map.mem_map_fst_sorted, ← hbatch]
      exact List.mem_map.mpr ⟨_, hx, rfl⟩
    obtain ⟨p, hp⟩ := hno b hb hl (he1 ▸ hnil)
    exact ⟨p, (hmval b bd (Map.mem_sorted.mp hx)).trans (hI.getPageId.mpr hp), hp⟩
  · obtain ⟨b, bd⟩ := x
    exact (hmval b bd (Map.mem_sorted.mp hx)).trans (hI.getPageId.mpr hq)
  · obtain ⟨info, -, -, hr⟩ := hI.reads q x.1 hq (by simp)
    exact ⟨_, hr⟩

/-- What the engine was asked for is what the caller gave. -/
lemma PutStart.mem_alloc {cid : String} {blocks : Map ℤ BlockPut} {c1 : Cache} {it : Item}
    {m : Map ℤ BlockData} (hS : PutStart cfg c tbl cid blocks c1 it m) {e' : Engine}
    {alloc : Map ℤ (Option ℕ)} (hP : Placed cfg c1.engine tbl cid (m.sorted.map Prod.fst) e' tbl'
      alloc) (hkeys : ∀ b, b ∉ m.sorted.map Prod.fst → alloc.lookup b = (∅ : Map ℤ _).lookup b)
    (b : ℤ) : b ∈ alloc.sorted.map Prod.fst ↔ b ∈ blocks.sorted.map Prod.fst := by
  rw [Map.mem_map_fst_sorted, ← hS.mem]
  constructor
  · intro hs
    by_contra hb
    rw [hkeys b hb, AList.lookup_empty] at hs
    cases hs
  · intro hb
    obtain ⟨page, hpage, -⟩ := hP.placed b hb
    rw [hpage]
    rfl

/-- The item between the two loops of `put_data_blocks`: it has yet to learn the pages of the
batch. -/
lemma itemOk_of_placed {it : Item} {e e' : Engine} {cid : String} {batch keys : List ℤ}
    {alloc : Map ℤ (Option ℕ)} (hI : ItemOk it e tbl cid [])
    (hP : Placed cfg e tbl cid batch e' tbl' alloc) (hkeys : ∀ b, b ∈ keys ↔ b ∈ batch) :
    ItemOk it e' tbl' cid keys := by
  refine ⟨fun p b hp hb => ?_, fun p b hp hb => ?_, fun b info hinfo hb => ?_⟩
  · obtain ⟨h1, h2⟩ := hP.others p cid b (.inr fun hc => hb ((hkeys b).mpr hc))
    have hp' := h1.mp hp
    obtain ⟨info, h3, h4, h5⟩ := hI.reads p b hp' (by simp)
    exact ⟨info, h3, h4, by rw [h2 hp']; exact h5⟩
  · obtain ⟨page, -, hself, hr⟩ := hP.placed b ((hkeys b).mp hb)
    exact hr p ((hself p).mpr hp)
  · obtain ⟨p, h1, h2⟩ := hI.infos b info hinfo (by simp)
    exact ⟨p, h1, ((hP.others p cid b (.inr fun hc => hb ((hkeys b).mpr hc))).1).mpr h2⟩

/-- **`put_data_blocks`** without eviction. -/
theorem Good.putDataBlocks (h : OnePage cfg) (hG : c.Good cfg tbl) {cid : String}
    (hcid : cid ≠ "none") (blocks : Map ℤ BlockPut) (op : AllocateOperationType) (d : Disk)
    (hlen : cfg.applyLruEviction = true → blocks.sorted.length ≤ 1)
    (hno : ∀ b, (blocks.lookup b).isSome → cfg.applyLruEviction = true → c.engine.freePages = [] →
      ∃ p, tbl p = some (cid, b)) :
    ∃ c' res tbl', c.putDataBlocks cfg d cid blocks op = some (c', d, res) ∧
      PutOk cfg c tbl cid (blocks.sorted.map Prod.fst) c' tbl' := by
  obtain ⟨c1, it, m, hS⟩ := hG.putStart cid blocks hlen hno
  have hmeta : it.metadata = (c.getContentMetadata cid).getD .new := by
    rw [hS.item_eq, getContentMetadata]
    cases c.contents.lookup cid <;> rfl
  -- the loop of the engine
  obtain ⟨e', tbl', alloc, hloop, hP, hkeys⟩ := hS.batch.placed h hcid op d ∅
    fun x _ => AList.lookup_empty x.1
  have halloc := hS.mem_alloc hP hkeys
  have hbatch : ∀ b, b ∈ alloc.sorted.map Prod.fst ↔ b ∈ m.sorted.map Prod.fst := fun b =>
    (halloc b).trans (hS.mem b).symm
  -- the loop over the pages that it has given
  obtain ⟨it', e'', res, any, hput, hR'', hX'', hI'', hmeta', -, -, hsame⟩ := putLoop_ok blocks
    alloc.sorted (Map.nodup_map_fst_sorted alloc)
    (fun x hx => by
      rw [← Map.mem_map_fst_sorted, ← halloc]
      exact List.mem_map.mpr ⟨x, hx, rfl⟩)
    hP.rep hP.exact
    (fun x hx p => by
      obtain ⟨b, page⟩ := x
      obtain ⟨page', hpage', hself, -⟩ :=
        hP.placed b ((hbatch b).mp (List.mem_map.mpr ⟨_, hx, rfl⟩))
      rw [Map.mem_sorted.mp hx, Option.some.injEq] at hpage'
      rw [hpage']
      exact hself p)
    (itemOk_of_placed (hS.good.items cid it hS.item) hP hbatch) ∅ false
  set it2 := if any then it'.setDataSyncFlag false else it' with hit2
  have hdata2 : it2.data = it'.data := by rw [hit2]; split_ifs <;> rfl
  have hmeta2 : it2.metadata = it'.metadata := by rw [hit2]; split_ifs <;> rfl
  have heq : c.putDataBlocks cfg d cid blocks op
      = some ({ (c1.setItem cid it2) with engine := e'' }, d, res) := by
    simp only [Cache.putDataBlocks, ← hS.start, Option.bind_eq_bind, hS.item, Option.bind_some,
      allocateBlocks, ← hS.mapping, hloop, hput, ← hit2]
  -- the blocks that are not in the batch
  have hothers : ∀ p o b, (o ≠ cid ∨ b ∉ blocks.sorted.map Prod.fst) →
      (tbl' p = some (o, b) ↔ tbl p = some (o, b)) ∧
      (tbl p = some (o, b) → e''.searchIndex p = c.engine.searchIndex p) := by
    intro p o b hob
    obtain ⟨h1, h2⟩ := hP.others p o b (hob.imp_right fun hn hc => hn ((hS.mem b).mp hc))
    refine ⟨h1, fun hp => ?_⟩
    rw [hsame p o b (h1.mpr hp) (hob.imp_right fun hn hc => hn ((halloc b).mp hc)), h2 hp,
      hS.engine]
  refine ⟨_, res, tbl', heq, ⟨hR'', hX'', fun o it1 ho => ?_, fun p o b hp => ?_⟩,
    hS.fileInodeMapping, fun o => ?_, hothers, fun o ho => ?_⟩
  · simp only [Cache.setItem, Map.lookup_set] at ho
    split_ifs at ho with hoc
    · rw [Option.some.injEq] at ho
      subst ho hoc
      exact hI''.of_data hdata2
    · have ho' : c1.contents.lookup o = some it1 := ho
      refine (hS.good.items o it1 ho').congr (fun p b => (hothers p o b (.inl hoc)).1)
        fun p b hp => ?_
      rw [hS.engine, (hothers p o b (.inl hoc)).2 hp]
  · simp only [Cache.setItem, Map.lookup_set]
    split_ifs with hoc
    · rfl
    · exact hS.good.known p o b ((hothers p o b (.inl hoc)).1.mp hp)
  · simp only [getContentMetadata, Cache.setItem, Map.lookup_set]
    split_ifs with hoc
    · rw [Option.map_some, hmeta2, hmeta', hmeta]
      rfl
    · rw [hS.others o hoc]
  · simp only [Cache.setItem, Map.lookup_set_ne _ _ ho]
    exact hS.others o ho

end Cache

/-! ### `get_data_blocks` -/

namespace Engine

variable {e e' : Engine}

lemma SameStore.isBlockCached (h : SameStore e e') (o : String) (page : Option ℕ) (b : ℤ) :
    e'.isBlockCached cfg o page b = e.isBlockCached cfg o page b := by
  have hptr : e'.getPagePtr cfg = e.getPagePtr cfg := by
    funext p
    rw [Engine.getPagePtr, Engine.getPagePtr, h.searchIndex]
  rw [Engine.isBlockCached, Engine.isBlockCached, hptr]

/-- The buffer of one request after `get_blocks`. -/
def answer (cfg : Config) (e : Engine) (o : String) (blk : ℤ) (req : Option ℕ × Mem × ℤ) : Mem :=
  match req.1 with
  | some p =>
      if e.isBlockCached cfg o (some p) blk then
        (e.searchIndex p).getBlockData blk req.2.1 req.2.2
      else req.2.1
  | none => req.2.1

variable (cfg) in
/-- The loop of `get_blocks`: every block asked for is found when it is in the page named, and
nothing but the LRU list changes. -/
lemma getLoop_spec (o : String) (l : List (ℤ × (Option ℕ × Mem × ℤ))) (hnd : (l.map Prod.fst).Nodup)
    (e : Engine) (found : Map ℤ Bool) (buffers : Map ℤ Mem)
    (hfresh : ∀ x ∈ l, found.lookup x.1 = none ∧ buffers.lookup x.1 = none) :
    SameStore e (Engine.getLoop cfg o l e (found, buffers)).1 ∧
    (∀ b, b ∉ l.map Prod.fst →
      (Engine.getLoop cfg o l e (found, buffers)).2.1.lookup b = found.lookup b ∧
      (Engine.getLoop cfg o l e (found, buffers)).2.2.lookup b = buffers.lookup b) ∧
    ∀ x ∈ l,
      (Engine.getLoop cfg o l e (found, buffers)).2.1.lookup x.1
        = some (e.isBlockCached cfg o x.2.1 x.1) ∧
      (Engine.getLoop cfg o l e (found, buffers)).2.2.lookup x.1
        = some (answer cfg e o x.1 x.2) := by
  induction l generalizing e found buffers with
  | nil => exact ⟨.refl e, fun _ _ => ⟨rfl, rfl⟩, fun x hx => by cases hx⟩
  | cons x l ih =>
      obtain ⟨blk, page, data, r⟩ := x
      rw [List.map_cons, List.nodup_cons] at hnd
      -- one turn: the answer is entered, and at most the LRU list moves
      obtain ⟨e1, hsame, heq⟩ : ∃ e1, SameStore e e1 ∧
          Engine.getLoop cfg o ((blk, page, data, r) :: l) e (found, buffers)
            = Engine.getLoop cfg o l e1 (found.insertNew blk (e.isBlockCached cfg o page blk),
                buffers.insertNew blk (answer cfg e o blk (page, data, r))) := by
        cases page with
        | none => exact ⟨e, .refl e, rfl⟩
        | some p =>
            by_cases hc : e.isBlockCached cfg o (some p) blk = true
            · refine ⟨if cfg.applyLruEviction then e.applyLruOnRead p else e, ?_, ?_⟩
              · split_ifs
                · exact sameStore_applyLruOnRead e p
                · exact .refl e
              · rw [Engine.getLoop]
                simp only [hc, if_true, answer]
            · rw [Bool.not_eq_true] at hc
              refine ⟨e, .refl e, ?_⟩
              rw [Engine.getLoop]
              simp only [hc, Bool.false_eq_true, if_false, answer]
      obtain ⟨h1, h2, h3⟩ := ih hnd.2 e1 (found.insertNew blk (e.isBlockCached cfg o page blk))
        (buffers.insertNew blk (answer cfg e o blk (page, data, r))) (fun y hy => by
          have hne : y.1 ≠ blk := fun h => hnd.1 (List.mem_map.mpr ⟨y, hy, h⟩)
          rw [Map.lookup_insertNew_ne _ _ hne, Map.lookup_insertNew_ne _ _ hne]
          exact hfresh y (List.mem_cons_of_mem _ hy))
      rw [heq]
      refine ⟨hsame.trans h1, fun b hb => ?_, fun y hy => ?_⟩
      · rw [List.map_cons, List.mem_cons, not_or] at hb
        obtain ⟨h4, h5⟩ := h2 b hb.2
        rw [h4, h5, Map.lookup_insertNew_ne _ _ hb.1, Map.lookup_insertNew_ne _ _ hb.1]
        exact ⟨rfl, rfl⟩
      · rcases List.mem_cons.mp hy with rfl | hy
        · obtain ⟨h4, h5⟩ := h2 blk hnd.1
          obtain ⟨h6, h7⟩ := hfresh _ List.mem_cons_self
          dsimp only at h6 h7 ⊢
          rw [h4, h5, Map.lookup_insertNew, Map.lookup_insertNew, if_pos rfl, if_pos rfl, h6, h7]
          exact ⟨rfl, rfl⟩
        · obtain ⟨h4, h5⟩ := h3 y hy
          rw [h4, h5, hsame.isBlockCached]
          refine ⟨rfl, ?_⟩
          simp only [answer, hsame.isBlockCached, hsame.searchIndex]

end Engine

variable (cfg) in
/-- The requests for the blocks the item knows. -/
lemma lookup_getMapping (it : Item) (l : List (ℤ × Mem)) (hnd : (l.map Prod.fst).Nodup)
    (m : Map ℤ (Option ℕ × Mem × ℤ)) (hfresh : ∀ x ∈ l, m.lookup x.1 = none) (b : ℤ) :
    (∀ buffer, (b, buffer) ∈ l → (Cache.getMapping cfg it l m).lookup b
      = if it.data.hasBlock b then some (it.data.getPageId b, buffer, (cfg.ioBlockSize : ℤ) - 1)
        else none) ∧
      (b ∉ l.map Prod.fst → (Cache.getMapping cfg it l m).lookup b = m.lookup b) := by
  induction l generalizing m with
  | nil => exact ⟨fun _ h => absurd h (by simp), fun _ => rfl⟩
  | cons x l ih =>
      obtain ⟨blk, buf⟩ := x
      rw [List.map_cons, List.nodup_cons] at hnd
      have hne : ∀ y ∈ l, y.1 ≠ blk := fun y hy h => hnd.1 (List.mem_map.mpr ⟨y, hy, h⟩)
      set m1 := if it.data.hasBlock blk then
          m.insertNew blk (it.data.getPageId blk, buf, (cfg.ioBlockSize : ℤ) - 1) else m with hm1
      have heq : Cache.getMapping cfg it ((blk, buf) :: l) m = Cache.getMapping cfg it l m1 := by
        rw [Cache.getMapping, hm1]
        split_ifs <;> rfl
      have hm1ne : ∀ k, k ≠ blk → m1.lookup k = m.lookup k := by
        intro k hk
        rw [hm1]
        split_ifs
        · exact Map.lookup_insertNew_ne _ _ hk
        · rfl
      obtain ⟨h1, h2⟩ := ih hnd.2 m1 (fun y hy => by
        rw [hm1ne _ (hne y hy)]
        exact hfresh y (List.mem_cons_of_mem _ hy))
      rw [heq]
      refine ⟨fun buffer hb => ?_, fun hb => ?_⟩
      · rcases List.mem_cons.mp hb with hb | hb
        · rw [Prod.mk.injEq] at hb
          obtain ⟨rfl, rfl⟩ := hb
          rw [h2 hnd.1, hm1]
          split_ifs
          · rw [Map.lookup_insertNew, if_pos rfl, hfresh _ List.mem_cons_self, Option.getD_none]
          · exact hfresh _ List.mem_cons_self
        · exact h1 buffer hb
      · rw [List.map_cons, List.mem_cons, not_or] at hb
        rw [h2 hb.2, hm1ne _ hb.1]

/-- The item and the answer after the loop of `get_data_blocks`: the item forgets the blocks that
were not found. -/
structure GetBlocks (it : Item) (l : List (ℤ × Bool)) (res : Map ℤ (Bool × (ℤ × ℤ))) (it' : Item)
    (res' : Map ℤ (Bool × (ℤ × ℤ))) : Prop where
  metadata : it'.metadata = it.metadata
  blocks : ∀ b, it'.data.blocks.lookup b
    = if (b, false) ∈ l then none else it.data.blocks.lookup b
  others : ∀ b, b ∉ l.map Prod.fst → res'.lookup b = res.lookup b
  lost : ∀ b, (b, false) ∈ l → res'.lookup b = some (false, (0, 0))
  found : ∀ b info, (b, true) ∈ l → it.data.blocks.lookup b = some info →
    res'.lookup b = some (true, info.readableOffset)

/-- The first block was not found. -/
lemma GetBlocks.cons_lost {it it' : Item} {l : List (ℤ × Bool)}
    {res res' : Map ℤ (Bool × (ℤ × ℤ))} {blk : ℤ} (hnd : blk ∉ l.map Prod.fst)
    (hfresh : res.lookup blk = none)
    (h : GetBlocks { it with data := it.data.removeBlock blk } l
      (res.insertNew blk (false, (0, 0))) it' res') :
    GetBlocks it ((blk, false) :: l) res it' res' := by
  have hlook : ∀ b, (it.data.removeBlock blk).blocks.lookup b
      = if b = blk then none else it.data.blocks.lookup b := fun b => Map.lookup_erase' _ _ _
  refine ⟨h.metadata, fun b => ?_, fun b hb => ?_, fun b hb => ?_, fun b info hb hi => ?_⟩
  · rw [h.blocks, hlook]
    by_cases hb : b = blk
    · rw [if_pos hb, hb, if_pos List.mem_cons_self, ite_self]
    · have hiff : (b, false) ∈ (blk, false) :: l ↔ (b, false) ∈ l := by simp [hb]
      rw [if_neg hb, if_congr hiff rfl rfl]
  · rw [List.map_cons, List.mem_cons, not_or] at hb
    rw [h.others b hb.2, Map.lookup_insertNew_ne _ _ hb.1]
  · rcases List.mem_cons.mp hb with hb | hb
    · rw [Prod.mk.injEq] at hb
      rw [hb.1, h.others blk hnd, Map.lookup_insertNew, if_pos rfl, hfresh]
      rfl
    · exact h.lost b hb
  · rcases List.mem_cons.mp hb with hb | hb
    · simp at hb
    · have hne : b ≠ blk := fun heq => hnd (List.mem_map.mpr ⟨_, hb, heq⟩)
      exact h.found b info hb (by rw [hlook, if_neg hne, hi])

/-- The first block was found, at the offsets that the item knows. -/
lemma GetBlocks.cons_found {it it' : Item} {l : List (ℤ × Bool)}
    {res res' : Map ℤ (Bool × (ℤ × ℤ))} {blk : ℤ} {info0 : BlockInfo} (hnd : blk ∉ l.map Prod.fst)
    (hinfo0 : it.data.blocks.lookup blk = some info0) (hfresh : res.lookup blk = none)
    (h : GetBlocks it l (res.insertNew blk (true, info0.readableOffset)) it' res') :
    GetBlocks it ((blk, true) :: l) res it' res' := by
  refine ⟨h.metadata, fun b => ?_, fun b hb => ?_, fun b hb => ?_, fun b info hb hi => ?_⟩
  · have hiff : (b, false) ∈ (blk, true) :: l ↔ (b, false) ∈ l := by simp
    rw [h.blocks, if_congr hiff rfl rfl]
  · rw [List.map_cons, List.mem_cons, not_or] at hb
    rw [h.others b hb.2, Map.lookup_insertNew_ne _ _ hb.1]
  · rcases List.mem_cons.mp hb with hb | hb
    · simp at hb
    · exact h.lost b hb
  · rcases List.mem_cons.mp hb with hb | hb
    · rw [Prod.mk.injEq] at hb
      obtain ⟨rfl, -⟩ := hb
      rw [hinfo0, Option.some.injEq] at hi
      rw [h.others b hnd, Map.lookup_insertNew, if_pos rfl, hfresh, hi]
      rfl
    · exact h.found b info hb hi

variable (cfg) in
/-- The loop of `get_data_blocks`, for blocks that the item knows where the engine found them. -/
lemma getLoop_item (e : Engine) (cid : String) (l : List (ℤ × Bool)) (hnd : (l.map Prod.fst).Nodup)
    (it : Item) (res : Map ℤ (Bool × (ℤ × ℤ)))
    (hfound : ∀ b, (b, true) ∈ l → ∃ info, it.data.blocks.lookup b = some info ∧
      e.isBlockCached cfg cid (it.data.getPageId b) b = true)
    (hfresh : ∀ x ∈ l, res.lookup x.1 = none) :
    ∃ it' res', Cache.getLoop cfg e cid l it res = some (it', res') ∧
      GetBlocks it l res it' res' := by
  induction l generalizing it res with
  | nil =>
      exact ⟨it, res, rfl, rfl, fun b => by simp, fun _ _ => rfl, fun b hb => absurd hb (by simp),
        fun b info hb => absurd hb (by simp)⟩
  | cons x l ih =>
      obtain ⟨blk, fnd⟩ := x
      rw [List.map_cons, List.nodup_cons] at hnd
      have hne : ∀ y ∈ l, y.1 ≠ blk := fun y hy h => hnd.1 (List.mem_map.mpr ⟨y, hy, h⟩)
      have hfresh0 := hfresh _ List.mem_cons_self
      -- the answers for the other blocks are still open
      have hopen : ∀ a, ∀ y ∈ l, (res.insertNew blk a).lookup y.1 = none := fun a y hy => by
        rw [Map.lookup_insertNew_ne _ _ (hne y hy)]
        exact hfresh y (List.mem_cons_of_mem _ hy)
      cases fnd with
      | false =>
          set it1 : Item := { it with data := it.data.removeBlock blk } with hit1
          have hlook : ∀ b, it1.data.blocks.lookup b
              = if b = blk then none else it.data.blocks.lookup b :=
            fun b => Map.lookup_erase' _ _ _
          have hoffs : Cache.getReadableOffsets cfg e cid it1 blk = some (0, 0) := by
            have hpage : it1.data.getPageId blk = none := by
              rw [Data.getPageId, hlook, if_pos rfl, Option.bind_none]
            rw [Cache.getReadableOffsets, hpage]
            rfl
          have hfound1 : ∀ b, (b, true) ∈ l → ∃ info, it1.data.blocks.lookup b = some info ∧
              e.isBlockCached cfg cid (it1.data.getPageId b) b = true := by
            intro b hb
            have hbb := hne _ hb
            obtain ⟨info, h7, h8⟩ := hfound b (List.mem_cons_of_mem _ hb)
            have hpage : it1.data.getPageId b = it.data.getPageId b := by
              rw [Data.getPageId, hlook, if_neg hbb, Data.getPageId]
            exact ⟨info, by rw [hlook, if_neg hbb, h7], by rw [hpage, h8]⟩
          obtain ⟨it', res', h1, hB⟩ := ih hnd.2 it1 _ hfound1 (hopen (false, (0, 0)))
          refine ⟨it', res', ?_, hB.cons_lost hnd.1 hfresh0⟩
          simp only [Cache.getLoop, Bool.false_eq_true, if_false, Option.bind_eq_bind, ← hit1,
            hoffs, Option.bind_some, h1]
      | true =>
          obtain ⟨info0, hinfo0, hc0⟩ := hfound blk List.mem_cons_self
          have hoffs : Cache.getReadableOffsets cfg e cid it blk = some info0.readableOffset := by
            rw [Cache.getReadableOffsets, hc0, if_pos rfl, Data.getReadableOffsets, hinfo0]
            rfl
          obtain ⟨it', res', h1, hB⟩ := ih hnd.2 it _
            (fun b hb => hfound b (List.mem_cons_of_mem _ hb))
            (hopen (true, info0.readableOffset))
          refine ⟨it', res', ?_, hB.cons_found hnd.1 hinfo0 hfresh0⟩
          simp only [Cache.getLoop, if_true, Option.bind_eq_bind, hoffs, Option.bind_some, h1]

namespace Cache

variable {c c' : Cache} {tbl tbl' : PageTable}

/-- A block that is asked for is known to the item, with its page. -/
lemma lookup_getMapping_known {it : Item} {e : Engine} {cid : String} (hI : ItemOk it e tbl cid [])
    {blocks : Map ℤ Mem} {b : ℤ} {req : Option ℕ × Mem × ℤ}
    (hreq : (getMapping cfg it blocks.sorted ∅).lookup b = some req) :
    ∃ info p, it.data.blocks.lookup b = some info ∧ info.pageIndexNumber = some p ∧
      req.1 = some p ∧ tbl p = some (cid, b) := by
  have hlook := lookup_getMapping cfg it blocks.sorted (Map.nodup_map_fst_sorted blocks) ∅
    (fun x _ => AList.lookup_empty x.1) b
  by_cases hb : b ∈ blocks.sorted.map Prod.fst
  · obtain ⟨⟨b', buffer⟩, hmem, rfl⟩ := List.mem_map.mp hb
    have h1 := hlook.1 buffer hmem
    rw [hreq] at h1
    split_ifs at h1 with hh
    rw [Option.some.injEq] at h1
    obtain ⟨info, hinfo⟩ := Option.isSome_iff_exists.mp hh
    obtain ⟨p, hp, htp⟩ := hI.infos b' info hinfo (by simp)
    exact ⟨info, p, hinfo, hp, by rw [h1]; exact hI.getPageId.mpr htp, htp⟩
  · have h1 := hlook.2 hb
    rw [hreq, AList.lookup_empty] at h1
    cases h1

/-- Blocks that are in the pages named are all found. -/
lemma getLoop_found {e : Engine} {cid : String} (hR : Rep cfg e tbl none)
    {m : Map ℤ (Option ℕ × Mem × ℤ)}
    (hm : ∀ b req, m.lookup b = some req → ∃ p, req.1 = some p ∧ tbl p = some (cid, b)) {b : ℤ}
    {v : Bool} (hv : (Engine.getLoop cfg cid m.sorted e (∅, ∅)).2.1.lookup b = some v) :
    v = true ∧ (m.lookup b).isSome := by
  obtain ⟨-, hkeys, hvals⟩ := Engine.getLoop_spec cfg cid m.sorted (Map.nodup_map_fst_sorted m) e
    ∅ ∅ (fun x _ => ⟨AList.lookup_empty x.1, AList.lookup_empty x.1⟩)
  by_cases hb : b ∈ m.sorted.map Prod.fst
  · obtain ⟨⟨b', req⟩, hmem, rfl⟩ := List.mem_map.mp hb
    obtain ⟨p, hreq, htp⟩ := hm b' req (Map.mem_sorted.mp hmem)
    have h1 := (hvals _ hmem).1
    dsimp only at h1 hv
    rw [hv, Option.some.injEq, hreq, hR.isBlockCached_iff.mpr ⟨p, rfl, htp⟩] at h1
    exact ⟨h1, Map.mem_map_fst_sorted.mp hb⟩
  · rw [(hkeys b hb).1, AList.lookup_empty] at hv
    cases hv

/-- An item with the same infos, over an engine with the same pages. -/
lemma Good.setItem_sameStore (hG : c.Good cfg tbl) {cid : String} {it it' : Item} {e' : Engine}
    (hit : c.contents.lookup cid = some it)
    (hblocks : ∀ b, it'.data.blocks.lookup b = it.data.blocks.lookup b)
    (hsame : SameStore c.engine e') :
    Good cfg { (c.setItem cid it') with engine := e' } tbl := by
  have hI := hG.items cid it hit
  refine ⟨hsame.rep hG.rep, hsame.exact hG.exact, fun o it1 ho => ?_, fun p o b hp => ?_⟩
  · have ho' : (c.setItem cid it').contents.lookup o = some it1 := ho
    rw [lookup_setItem] at ho'
    split_ifs at ho' with hoc
    · rw [Option.some.injEq] at ho'
      subst ho' hoc
      refine ⟨fun p b hp _ => ?_, fun p b _ hb => absurd hb (by simp), fun b info hinfo _ => ?_⟩
      · obtain ⟨info, h1, h2, h3⟩ := hI.reads p b hp (by simp)
        exact ⟨info, by rw [hblocks b, h1], h2, by rw [hsame.searchIndex]; exact h3⟩
      · rw [hblocks b] at hinfo
        exact hI.infos b info hinfo (by simp)
    · refine (hG.items o it1 ho').congr (fun _ _ => Iff.rfl) fun p b _ => ?_
      rw [hsame.searchIndex]
  · show ((c.setItem cid it').contents.lookup o).isSome
    rw [lookup_setItem]
    split_ifs
    · rfl
    · exact hG.known p o b hp

/-- **`get_data_blocks`** reads: a block that the item knows is found in its page, and no block,
page or item changes. -/
theorem Good.getDataBlocks (hG : c.Good cfg tbl) (cid : String) (blocks : Map ℤ Mem) :
    ∃ c' found buffers, c.getDataBlocks cfg cid blocks = some (c', found, buffers) ∧
      c'.Good cfg tbl ∧ SameStore c.engine c'.engine ∧
      c'.fileInodeMapping = c.fileInodeMapping ∧
      (∀ o, c'.getContentMetadata o = c.getContentMetadata o) ∧
      (∀ o b, ((c'.contents.lookup o).bind fun it => it.data.blocks.lookup b)
        = (c.contents.lookup o).bind fun it => it.data.blocks.lookup b) ∧
      ∀ it b buffer p info, c.contents.lookup cid = some it → blocks.lookup b = some buffer →
        it.data.blocks.lookup b = some info → info.pageIndexNumber = some p →
        found.lookup b = some (true, info.readableOffset) ∧
          buffers.lookup b
            = some ((c.engine.searchIndex p).getBlockData b buffer (cfg.ioBlockSize - 1)) := by
  cases hit : c.contents.lookup cid with
  | none =>
      refine ⟨c, ∅, ∅, by rw [Cache.getDataBlocks, hit], hG, .refl _, rfl, fun _ => rfl,
        fun _ _ => rfl, fun it b buffer p info h => by cases h⟩
  | some it =>
      have hI := hG.items cid it hit
      set m := getMapping cfg it blocks.sorted ∅ with hm
      -- the engine finds everything that it is asked for
      have hmknown : ∀ b req, m.lookup b = some req →
          ∃ p, req.1 = some p ∧ tbl p = some (cid, b) := fun b req hreq => by
        obtain ⟨-, p, -, -, h1, h2⟩ := lookup_getMapping_known hI hreq
        exact ⟨p, h1, h2⟩
      obtain ⟨hsame, -, hvals⟩ := Engine.getLoop_spec cfg cid m.sorted
        (Map.nodup_map_fst_sorted m) c.engine ∅ ∅
        (fun x _ => ⟨AList.lookup_empty x.1, AList.lookup_empty x.1⟩)
      have hfound : ∀ b v, (Engine.getLoop cfg cid m.sorted c.engine (∅, ∅)).2.1.lookup b
          = some v → v = true ∧ (m.lookup b).isSome := fun b v => getLoop_found hG.rep hmknown
      set r := Engine.getLoop cfg cid m.sorted c.engine (∅, ∅) with hr
      -- so that the item forgets nothing
      obtain ⟨it', res, hloop, hmeta, hblocks, -, -, hres⟩ := getLoop_item cfg r.1 cid
        r.2.1.sorted (Map.nodup_map_fst_sorted _) it ∅
        (fun b hb => by
          obtain ⟨-, hs⟩ := hfound b true (Map.mem_sorted.mp hb)
          obtain ⟨req, hreq⟩ := Option.isSome_iff_exists.mp hs
          obtain ⟨info, p, h1, -, -, h2⟩ := lookup_getMapping_known hI hreq
          refine ⟨info, h1, ?_⟩
          rw [hsame.isBlockCached]
          exact hG.rep.isBlockCached_iff.mpr ⟨p, hI.getPageId.mpr h2, h2⟩)
        (fun x _ => AList.lookup_empty x.1)
      have hblocks' : ∀ b, it'.data.blocks.lookup b = it.data.blocks.lookup b := by
        intro b
        rw [hblocks b, if_neg]
        intro hb
        cases (hfound b false (Map.mem_sorted.mp hb)).1
      have heq : c.getDataBlocks cfg cid blocks
          = some ({ (c.setItem cid it') with engine := r.1 }, res, r.2.2) := by
        simp only [Cache.getDataBlocks, hit, ← hm, Engine.getBlocks, ← hr, hloop,
          Option.bind_eq_bind, Option.bind_some]
      refine ⟨_, res, r.2.2, heq, hG.setItem_sameStore hit hblocks' hsame, hsame, rfl,
        fun o => ?_, fun o b => ?_, fun it1 b buffer p info h1 h2 h3 h4 => ?_⟩
      · show ((c.setItem cid it').contents.lookup o).map Item.metadata = _
        rw [lookup_setItem, getContentMetadata]
        split_ifs with hoc
        · rw [hoc, hit, Option.map_some, Option.map_some, hmeta]
        · rfl
      · show ((c.setItem cid it').contents.lookup o).bind _ = _
        rw [lookup_setItem]
        split_ifs with hoc
        · rw [hoc, hit, Option.bind_some, Option.bind_some, hblocks' b]
        · rfl
      · rw [Option.some.injEq] at h1
        subst h1
        have hreq : m.lookup b = some (some p, buffer, (cfg.ioBlockSize : ℤ) - 1) := by
          rw [hm, (lookup_getMapping cfg it blocks.sorted (Map.nodup_map_fst_sorted blocks) ∅
            (fun x _ => AList.lookup_empty x.1) b).1 buffer (Map.mem_sorted.mpr h2),
            if_pos (by rw [Data.hasBlock, h3]; rfl), Data.getPageId, h3, Option.bind_some, h4]
        obtain ⟨q, hq, htq⟩ := hI.infos b info h3 (by simp)
        rw [h4, Option.some.injEq] at hq
        subst hq
        have hcached := hG.rep.isBlockCached_iff.mpr ⟨p, rfl, htq⟩
        obtain ⟨h5, h6⟩ := hvals _ (Map.mem_sorted.mpr hreq)
        dsimp only at h5 h6
        rw [hcached] at h5
        refine ⟨hres b info (Map.mem_sorted.mpr h5) h3, ?_⟩
        rw [h6]
        simp only [Engine.answer, hcached, if_true]

end Cache

end LazyFS
