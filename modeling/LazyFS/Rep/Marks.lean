import LazyFS.Rep.ItemOps

/-!
The synced marks of the blocks, against the dirty flags of their pages and the flags of the items.

* `Engine.mark`: the mark of a block in the ordered map of its owner; `Engine.Flagged`: a block is
  marked synced when its page is clean.
* `Cache.Marked`: the same for the whole cache, and the blocks of an item that is synced are.
* `Good.putDataBlocks_marks` to `Good.truncateItem_marks`: what the operations on blocks do to the
  marks.
* `Cache.Forgets`: the other operations, up to `InOrder.clearAllCache`, only drop marks.
-/

namespace LazyFS

open Engine

namespace Engine

variable {cfg : Config} {e e' : Engine} {d d' : Disk} {tbl tbl' : PageTable}
  {cid : String} {blk : ℤ}
  {b : BlockData} {op : AllocateOperationType} {page : Option ℕ}

/-- The mark of a block in the ordered map of its owner. -/
def mark (e : Engine) (o : String) (b : ℤ) : Option Bool := (e.entry o b).map OrderedEntry.isSynced

/-- A block is marked synced when its page is clean. -/
def Flagged (e : Engine) : Prop :=
  ∀ o b en, e.entry o b = some en → (e.searchIndex en.pageId).isDirty = !en.isSynced

lemma mark_congr (h : ∀ o b, e'.entry o b = e.entry o b) (o : String) (b : ℤ) :
    e'.mark o b = e.mark o b := by rw [mark, mark, h]

lemma Flagged.congr (hF : Flagged e) (h : ∀ o b, e'.entry o b = e.entry o b)
    (hd : ∀ q, (e'.searchIndex q).isDirty = (e.searchIndex q).isDirty) : Flagged e' := by
  intro o b en hen
  rw [hd]
  exact hF o b en (by rw [← h]; exact hen)

/-- A block that is not in a page has no mark. -/
lemma Exact.mark_eq_none (hX : Exact cfg e tbl) {o : String} {b : ℤ}
    (h : ∀ p, tbl p ≠ some (o, b)) : e.mark o b = none := by
  rw [mark, Option.map_eq_none_iff]
  by_contra hne
  obtain ⟨en, hen⟩ := Option.ne_none_iff_exists'.mp hne
  exact h _ (hX.of_entry o b en hen).1

/-- The page of a block is dirty when the block is not marked synced. -/
lemma Flagged.isDirty_eq (hF : Flagged e) (hX : Exact cfg e tbl) {p : ℕ} {o : String} {b : ℤ}
    (h : tbl p = some (o, b)) : e.mark o b = some (!(e.searchIndex p).isDirty) := by
  obtain ⟨en, hen, rfl⟩ := hX.entry_of p o b h
  rw [mark, hen, hF o b en hen, Bool.not_not]
  rfl

/-! ### A turn of `allocate_blocks` -/

/-- A turn marks the block it stores, and no other. -/
lemma Allocated.marks (h : OnePage cfg) (hA : Allocated cfg e d tbl cid blk b e' d' tbl' page)
    (hR : Rep cfg e tbl none) (hX : Exact cfg e tbl)
    (hknown : ∀ q, tbl q = some (cid, blk) → b.pageId = some q)
    (hno : NoEviction cfg e tbl cid blk b) :
    (∀ o b', e'.mark o b' = if o = cid ∧ b' = blk then page.map fun _ => false else e.mark o b') ∧
      (Flagged e → Flagged e') := by
  cases hA with
  -- the page of the block is written again, which marks its entry unsynced
  | update p _ hp hent hU =>
      obtain ⟨ent, hent⟩ := Option.isSome_iff_exists.mp hent
      refine ⟨fun o b' => ?_, fun hF o b' en hen => ?_⟩
      · rw [mark, hU.entry, Option.map_map]
        split_ifs with hc
        · rw [hc.1, hc.2, hent]
          rfl
        · rw [mark]
          rfl
      · rw [hU.entry] at hen
        obtain ⟨en0, hen0, rfl⟩ := Option.map_eq_some_iff.mp hen
        have htbl := (hX.of_entry o b' en0 hen0).1
        rw [hU.searchIndex]
        by_cases hc : o = cid ∧ b' = blk
        · obtain ⟨rfl, rfl⟩ := hc
          obtain ⟨en1, hen1, hid⟩ := hX.entry_of p o b' hp
          rw [hen0, Option.some.injEq] at hen1
          rw [if_pos ⟨rfl, rfl⟩]
          dsimp only
          rw [hen1, hid, Function.update_self, (hR.usedPage hp).updateBlockData h.two_le]
          rfl
        · have hne : en0.pageId ≠ p := by
            intro heq
            rw [heq, hp, Option.some.injEq, Prod.mk.injEq] at htbl
            exact hc ⟨htbl.1.symm, htbl.2.symm⟩
          rw [if_neg hc, Function.update_of_ne hne]
          exact hF o b' en0 hen0
  -- a free page gets the block, which has no entry yet
  | fresh p hb _ hfree hR1 hS =>
      have hnone : e.entry cid blk = none := by
        have := hX.mark_eq_none (o := cid) (b := blk) fun q hq => hb q (hknown q hq) hq
        rwa [mark, Option.map_eq_none_iff] at this
      have hfreeMark : ∀ b', e.entry "none" b' = none := by
        intro b'
        have := hX.mark_eq_none (o := "none") (b := b') fun q hq => (hR.used q _ _ hq).2.1 rfl
        rwa [mark, Option.map_eq_none_iff] at this
      have hentry : ∀ o b', e'.entry o b'
          = if o = cid ∧ b' = blk then some ⟨p, slot cfg, false⟩ else e.entry o b' := by
        intro o b'
        have h0 : ({ e with freePages := e.freePages.dropLast } : Engine).entry cid blk = none :=
          hnone
        rw [hS.entry, h0, Option.getD_none]
        split_ifs with h1 h2
        · rfl
        · have howner : o = "none" := h2.1.trans hfree.owner
          rw [howner, hfreeMark]
        · rfl
      refine ⟨fun o b' => ?_, fun hF o b' en hen => ?_⟩
      · rw [mark, hentry]
        split_ifs
        · rfl
        · rfl
      · rw [hentry] at hen
        rw [hS.searchIndex]
        split_ifs at hen with hc
        · rw [Option.some.injEq] at hen
          rw [← hen, Function.update_self]
          rfl
        · have htbl := (hX.of_entry o b' en hen).1
          have hne : en.pageId ≠ p := by
            intro heq
            rw [heq, (hR1.inHand p rfl).2] at htbl
            cases htbl
          rw [Function.update_of_ne hne]
          exact hF o b' en hen
  | evict p o b' hb hnil hl _ _ _ => exact (hno.elim hb hnil hl).elim
  -- no page is found, and nothing changes
  | full hb _ _ =>
      refine ⟨fun o b' => ?_, id⟩
      split_ifs with hc
      · rw [hc.1, hc.2]
        exact hX.mark_eq_none fun q hq => hb q (hknown q hq) hq
      · rfl

/-- **The loop of `allocate_blocks`** marks the blocks it stores. -/
theorem Batch.marks (h : OnePage cfg) (hcid : cid ≠ "none") {l : List (ℤ × BlockData)}
    (hB : Batch cfg e tbl cid l) {res res' : Map ℤ (Option ℕ)}
    (hres : ∀ x ∈ l, res.lookup x.1 = none)
    (hloop : allocateLoop cfg cid op l e d res = some (e', d', res')) :
    (∀ o b, e'.mark o b = if o = cid ∧ b ∈ l.map Prod.fst then
      ((res'.lookup b).bind id).map fun _ => false else e.mark o b) ∧ (Flagged e → Flagged e') := by
  induction l generalizing e d tbl res with
  | nil =>
      rw [allocateLoop, Option.some.injEq, Prod.mk.injEq] at hloop
      rw [← hloop.1]
      exact ⟨fun o b => by rw [if_neg (by simp)], id⟩
  | cons x l ih =>
      obtain ⟨blk, bd⟩ := x
      have hnd := hB.nodup
      rw [List.map_cons, List.nodup_cons] at hnd
      have hno1 := hB.no _ List.mem_cons_self
      have hknown1 := hB.known _ List.mem_cons_self
      -- the first block
      obtain ⟨e1, d1, page, tbl1, ha, hA⟩ :=
        hB.rep.allocateBlock_noEviction h hB.exact hcid hno1 d op
      obtain ⟨h1, h2⟩ := hA.marks h hB.rep hB.exact hknown1 hno1
      simp only [allocateLoop, Option.bind_eq_bind, ha, Option.bind_some] at hloop
      have hres1 : ∀ y ∈ l, (res.insertNew blk page).lookup y.1 = none := by
        intro y hy
        rw [Map.lookup_insertNew_ne]
        · exact hres y (List.mem_cons_of_mem _ hy)
        · rintro heq
          exact hnd.1 (List.mem_map.mpr ⟨y, hy, heq⟩)
      -- and then the tail, which does not come back to it
      obtain ⟨h3, h4⟩ := ih (hB.tail hA) hres1 hloop
      obtain ⟨e2, -, res2, hloop2, -, hkeep⟩ := (hB.tail hA).placed h hcid op d1 _ hres1
      rw [hloop, Option.some.injEq, Prod.mk.injEq, Prod.mk.injEq] at hloop2
      have hpage : res'.lookup blk = some page := by
        rw [hloop2.2.2, hkeep _ hnd.1, Map.lookup_insertNew, if_pos rfl, hres _ List.mem_cons_self]
        rfl
      refine ⟨fun o b' => ?_, fun hF => h4 (h2 hF)⟩
      rw [h3, h1, List.map_cons]
      by_cases ho : o = cid
      · by_cases hb : b' = blk
        · rw [if_neg fun hc => hnd.1 (hb ▸ hc.2), if_pos ⟨ho, hb⟩,
            if_pos ⟨ho, by rw [hb]; exact List.mem_cons_self⟩, hb, hpage]
          rfl
        · by_cases hm : b' ∈ l.map Prod.fst
          · rw [if_pos ⟨ho, hm⟩, if_pos ⟨ho, List.mem_cons_of_mem _ hm⟩]
          · rw [if_neg fun hc => hm hc.2, if_neg fun hc => hb hc.2,
              if_neg fun hc => (List.mem_cons.mp hc.2).elim hb hm]
      · rw [if_neg fun hc => ho hc.1, if_neg fun hc => ho hc.1, if_neg fun hc => ho hc.1]

/-! ### Write-back -/

/-- The entries of a streak are marked, and no others. -/
lemma markSynced_isSynced (s : Streak) (l : List OrderedEntry) (k : ℕ) {m m' : Map ℤ OrderedEntry}
    (h : markSynced s l k m = some m') (b : ℤ) :
    (m'.lookup b).map OrderedEntry.isSynced = if b ∈ (numbered (s.start + k) l).map Prod.fst
      then some true else (m.lookup b).map OrderedEntry.isSynced := by
  induction l generalizing k m with
  | nil =>
      rw [markSynced, Option.some.injEq] at h
      rw [h, numbered, List.map_nil, if_neg List.not_mem_nil]
  | cons x l ih =>
      rw [markSynced, Option.bind_eq_bind, Option.bind_eq_some_iff] at h
      obtain ⟨en, hen, h⟩ := h
      have hblk : s.currentBlockId - s.pageChunk.length + k + 1 = s.start + k := by
        rw [Streak.start]
        ring
      rw [hblk] at h
      have hstart : s.start + ((k + 1 : ℕ) : ℤ) = s.start + k + 1 := by push_cast; ring
      rw [ih (k + 1) h, hstart, numbered, List.map_cons, Map.lookup_set]
      by_cases hm : b ∈ (numbered (s.start + k + 1) l).map Prod.fst
      · rw [if_pos hm, if_pos (List.mem_cons_of_mem _ hm)]
      · rw [if_neg hm]
        by_cases hb : b = s.start + k
        · rw [if_pos hb, if_pos (by rw [hb]; exact List.mem_cons_self)]
          rfl
        · rw [if_neg hb, if_neg fun hc => (List.mem_cons.mp hc).elim hb hm]

/-- The blocks of all streaks are marked. -/
lemma flushStreaks_isSynced (fd : Option Fd) (io : SyncIo) (l : List Streak) (k : ℕ)
    {m m' : Map ℤ OrderedEntry} (h : e.flushStreaks cfg fd io l k m d = some (m', d')) (b : ℤ) :
    (m'.lookup b).map OrderedEntry.isSynced = if b ∈ (l.flatMap Streak.blocks).map Prod.fst
      then some true else (m.lookup b).map OrderedEntry.isSynced := by
  induction l generalizing k m d with
  | nil =>
      rw [flushStreaks, Option.some.injEq, Prod.mk.injEq] at h
      rw [h.1, List.flatMap_nil, List.map_nil, if_neg List.not_mem_nil]
  | cons s l ih =>
      simp only [flushStreaks, Option.bind_eq_bind, Option.bind_eq_some_iff] at h
      obtain ⟨buffers, -, m1, hm1, h⟩ := h
      have hs : numbered (s.start + (0 : ℕ)) s.pageChunk = s.blocks := by
        rw [Nat.cast_zero, add_zero]
        rfl
      rw [ih (k + 1) h, markSynced_isSynced s _ 0 hm1, hs, List.flatMap_cons, List.map_append]
      by_cases hm : b ∈ (l.flatMap Streak.blocks).map Prod.fst
      · rw [if_pos hm, if_pos (List.mem_append_right _ hm)]
      · rw [if_neg hm]
        by_cases hb : b ∈ s.blocks.map Prod.fst
        · rw [if_pos hb, if_pos (List.mem_append_left _ hb)]
        · rw [if_neg hb, if_neg fun hc => (List.mem_append.mp hc).elim hb hm]

/-- The blocks that one write-back of an owner hands to `pwritev`. -/
def handed (e : Engine) (o : String) : List (ℤ × OrderedEntry) :=
  match e.ownerOrderedPagesMapping.lookup o with
  | none => []
  | some m => (streaks (e.dirtyBlocks m) []).flatMap Streak.blocks

/-- The blocks handed to `pwritev` are those whose page is dirty. -/
lemma Exact.mem_handed (hX : Exact cfg e tbl) {o : String} {b : ℤ} {en : OrderedEntry} :
    (b, en) ∈ e.handed o ↔ e.entry o b = some en ∧ (e.searchIndex en.pageId).isDirty = true := by
  rw [handed, entry]
  cases hm : e.ownerOrderedPagesMapping.lookup o with
  | none => simp
  | some m =>
      dsimp only
      rw [flatMap_blocks_streaks, (hX.separate hm).mem_dirtyBlocks, Option.bind_some]

/-- **Write-back** marks every block of the owner, and its pages are clean. -/
theorem syncPages_marks (hR : Rep cfg e tbl none) (hX : Exact cfg e tbl)
    (hF : Flagged e) {o : String} {size : ℕ} {path : Path} {io : SyncIo}
    (h : e.syncPages cfg d o size path io = some (e', d')) :
    (∀ o' b, e'.mark o' b = if o' = o then (e.mark o b).map fun _ => true else e.mark o' b) ∧
      Flagged e' := by
  have hC := cleaned_of_syncPages h
  have hmark : ∀ o' b, e'.mark o' b = if o' = o then (e.mark o b).map fun _ => true
      else e.mark o' b := by
    intro o' b
    rcases syncPages_cases h with ⟨hs, rfl, -⟩ | ⟨m, m', d1, -, hm, hflush, rfl, -⟩
    · split_ifs with ho
      · have hnone : e'.mark o b = none := hX.mark_eq_none fun p hp => by
          have := hR.known p o b hp
          rw [hs] at this
          cases this
        rw [ho, hnone]
        rfl
      · rfl
    · rw [mark, entry, entry_set]
      split_ifs with ho
      · have hold : (e.mark o b) = (m.lookup b).map OrderedEntry.isSynced := by
          rw [mark, entry, hm, Option.bind_some]
        rw [flushStreaks_isSynced _ _ _ _ hflush, flatMap_blocks_streaks, hold]
        split_ifs with hb
        · obtain ⟨⟨b', en⟩, hen, rfl⟩ := List.mem_map.mp hb
          rw [(hX.separate hm).mem_dirtyBlocks] at hen
          rw [hen.1]
          rfl
        · cases hl : m.lookup b with
          | none => rfl
          | some en =>
              -- a block that was not written was marked already
              have hen : e.entry o b = some en := by rw [entry, hm, Option.bind_some, hl]
              have hclean : (e.searchIndex en.pageId).isDirty = false := by
                by_contra hd
                rw [Bool.not_eq_false] at hd
                refine hb (List.mem_map.mpr ⟨(b, en), ?_, rfl⟩)
                rw [(hX.separate hm).mem_dirtyBlocks]
                exact ⟨hl, hd⟩
              have hflag := hF o b en hen
              rw [hclean] at hflag
              rw [Option.map_some, Option.map_some]
              cases hsy : en.isSynced
              · rw [hsy] at hflag
                cases hflag
              · rfl
      · rfl
  -- the marks still tell the dirty pages from the clean ones
  refine ⟨hmark, fun o' b en hen => ?_⟩
  have hsynced : e'.mark o' b = some en.isSynced := by rw [mark, hen]; rfl
  obtain ⟨en0, hen0, hid⟩ : ∃ en0, e.entry o' b = some en0 ∧ en0.pageId = en.pageId := by
    have hent := hC.entry o' b
    rw [hen, Option.map_some] at hent
    obtain ⟨en0, hen0, heq⟩ := Option.map_eq_some_iff.mp hent.symm
    rw [Prod.mk.injEq] at heq
    exact ⟨en0, hen0, heq.1⟩
  have htbl := (hX.of_entry o' b en0 hen0).1
  rw [hmark] at hsynced
  split_ifs at hsynced with ho
  · subst ho
    have hclean := hC.clean b en0 hen0 (hR.known en0.pageId o' b htbl)
    have htrue : en.isSynced = true := by
      obtain ⟨-, -, htrue⟩ := Option.map_eq_some_iff.mp hsynced
      exact htrue.symm
    rw [← hid, hclean, htrue]
    rfl
  · have hold : en0.isSynced = en.isSynced := by
      rw [mark, hen0, Option.map_some, Option.some.injEq] at hsynced
      exact hsynced
    have hsame : (e'.searchIndex en0.pageId).isDirty = (e.searchIndex en0.pageId).isDirty := by
      by_contra hne
      obtain ⟨b1, en1, hen1, hid1⟩ := hC.named en0.pageId hne
      have htbl1 := (hX.of_entry o b1 en1 hen1).1
      rw [hid1, htbl, Option.some.injEq, Prod.mk.injEq] at htbl1
      exact ho htbl1.1
    rw [← hid, hsame, hF o' b en0 hen0, hold]

/-! ### Blocks that go -/

/-- The blocks of an owner are removed. -/
lemma Removed.marks {o : String} (hm : Removed cfg e tbl o e') (hX : Exact cfg e tbl) :
    (∀ o' b, e'.mark o' b = if o' = o then none else e.mark o' b) ∧ (Flagged e → Flagged e') := by
  refine ⟨fun o' b => ?_, fun hF o' b en hen => ?_⟩
  · rw [mark, hm.entry]
    split_ifs
    · rfl
    · rfl
  · rw [hm.entry] at hen
    split_ifs at hen with ho
    rw [hm.searchIndex _ o' b (hX.of_entry o' b en hen).1 ho]
    exact hF o' b en hen

/-- The loop of a truncation: a block that goes has no mark, and no other mark changes. -/
lemma truncateBlocks_marks (h : OnePage cfg) {o : String} {blkId index : ℤ}
    {l : List (ℤ × Option ℕ)} (hnd : (l.map Prod.fst).Nodup) (hR : Rep cfg e tbl none)
    (hX : Exact cfg e tbl) (hl : ∀ x ∈ l, ∃ p, x.2 = some p ∧ tbl p = some (o, x.1))
    (hloop : l.foldlM (truncateBlock cfg o blkId index) e = some e') :
    (∀ o' b, e'.mark o' b = e.mark o' b ∨ o' = o ∧ e'.mark o' b = none) ∧
    (Flagged e → Flagged e') := by
  induction l generalizing e tbl with
  | nil =>
      rw [List.foldlM_nil] at hloop
      obtain rfl : e = e' := Option.some.inj hloop
      exact ⟨fun _ _ => .inl rfl, id⟩
  | cons x l ih =>
      obtain ⟨b, page⟩ := x
      rw [List.map_cons, List.nodup_cons] at hnd
      obtain ⟨p, hpage, hp⟩ := hl _ List.mem_cons_self
      dsimp only at hpage hp
      subst hpage
      have hother : ∀ y ∈ l, ∀ q, tbl q = some (o, y.1) → q ≠ p := by
        rintro y hy q hq rfl
        rw [hp, Option.some.injEq, Prod.mk.injEq] at hq
        exact hnd.1 (List.mem_map.mpr ⟨y, hy, hq.2.symm⟩)
      rw [List.foldlM_cons] at hloop
      by_cases hi : b = blkId ∧ 0 < index
      · -- the first block is cut in its page
        obtain ⟨rfl, hpos⟩ := hi
        rw [hR.truncateBlock_partial hp hpos] at hloop
        set pg := ((e.searchIndex p).makeBlockReadableTo b (index - 1)).writeNullFrom cfg b index
          with hpg
        have hu := ((hR.usedPage hp).makeBlockReadableTo b (index - 1)).writeNullFrom b index
        obtain ⟨h1, h2⟩ := ih (e := e.setPage p pg) hnd.2 (hR.setPage hp hu)
          ⟨hX.of_entry, hX.entry_of⟩
          (fun y hy => hl y (List.mem_cons_of_mem _ hy)) hloop
        refine ⟨h1, fun hF => h2 (hF.congr (fun _ _ => rfl) fun q => ?_)⟩
        by_cases hq : q = p
        · rw [hq, searchIndex_setPage_self]
          rfl
        · rw [searchIndex_setPage_ne _ _ hq]
      · -- it leaves its page
        obtain ⟨e1, he1, hd⟩ := hR.truncateBlock_whole h.oneBlock hp hi
        rw [he1] at hloop
        have hup : ∀ y ∈ l, ∃ q, y.2 = some q ∧ Function.update tbl p none q = some (o, y.1) := by
          intro y hy
          obtain ⟨q, h1, h2⟩ := hl y (List.mem_cons_of_mem _ hy)
          exact ⟨q, h1, by rw [Function.update_of_ne (hother y hy q h2)]; exact h2⟩
        obtain ⟨h1, h2⟩ := ih hnd.2 hd.rep (hd.exact hp hX) hup hloop
        have hmark : ∀ o' b', e1.mark o' b' = if o' = o ∧ b' = b then none else e.mark o' b' := by
          intro o' b'
          rw [mark, hd.entry]
          split_ifs
          · rfl
          · rfl
        refine ⟨fun o' b' => ?_, fun hF => h2 fun o' b' en hen => ?_⟩
        · rcases h1 o' b' with h3 | ⟨h3, h4⟩
          · rw [h3, hmark]
            split_ifs with hc
            · exact .inr ⟨hc.1, rfl⟩
            · exact .inl rfl
          · exact .inr ⟨h3, h4⟩
        · rw [hd.entry] at hen
          split_ifs at hen with hc
          have htbl := (hX.of_entry o' b' en hen).1
          have hne : en.pageId ≠ p := by
            intro heq
            rw [heq, hp, Option.some.injEq, Prod.mk.injEq] at htbl
            exact hc ⟨htbl.1.symm, htbl.2.symm⟩
          rw [hd.searchIndex _ hne]
          exact hF o' b' en hen

end Engine

/-! ### The operations of the cache -/

variable {cfg : Config}

/-- The loop of `put_data_blocks` over the allocations changes no mark and no dirty flag. -/
lemma putLoop_marks {cid : String} (blocks : Map ℤ BlockPut) {l : List (ℤ × Option ℕ)}
    (hnd : (l.map Prod.fst).Nodup) {it it' : Item} {e e' : Engine} {res res' : Map ℤ Bool}
    {any any' : Bool} (hfresh : ∀ x ∈ l, res.lookup x.1 = none)
    (h : Cache.putLoop cfg cid blocks l it e res any = some (it', e', res', any')) :
    (∀ o b, e'.entry o b = e.entry o b) ∧
      (∀ q, (e'.searchIndex q).isDirty = (e.searchIndex q).isDirty) ∧
      it'.dataSynced = it.dataSynced ∧ any' = (any || l.any fun x => x.2.isSome) ∧
      (∀ x ∈ l, res'.lookup x.1 = some x.2.isSome) ∧
      ∀ b, b ∉ l.map Prod.fst → res'.lookup b = res.lookup b := by
  induction l generalizing it e res any with
  | nil =>
      rw [Cache.putLoop, Option.some.injEq, Prod.mk.injEq, Prod.mk.injEq, Prod.mk.injEq] at h
      obtain ⟨rfl, rfl, rfl, rfl⟩ := h
      exact ⟨fun _ _ => rfl, fun _ => rfl, rfl, by simp, fun x hx => (by cases hx), fun _ _ => rfl⟩
  | cons x l ih =>
      obtain ⟨bid, page⟩ := x
      rw [List.map_cons, List.nodup_cons] at hnd
      have hfresh1 : ∀ (v : Bool), ∀ y ∈ l, (res.insertNew bid v).lookup y.1 = none := by
        intro v y hy
        rw [Map.lookup_insertNew_ne]
        · exact hfresh y (List.mem_cons_of_mem _ hy)
        · rintro heq
          exact hnd.1 (List.mem_map.mpr ⟨y, hy, heq⟩)
      have hnew : ∀ v : Bool, (res.insertNew bid v).lookup bid = some v := by
        intro v
        rw [Map.lookup_insertNew, if_pos rfl, hfresh _ List.mem_cons_self]
        rfl
      rw [Cache.putLoop, Option.bind_eq_bind, Option.bind_eq_some_iff] at h
      obtain ⟨b, -, h⟩ := h
      cases page with
      | none =>
          -- no page was found for the block
          obtain ⟨h1, h2, h3, h4, h5, h6⟩ := ih hnd.2 (hfresh1 false) h
          refine ⟨h1, h2, h3, ?_, fun y hy => ?_, fun b' hb' => ?_⟩
          · rw [h4, List.any_cons]
            rfl
          · rcases List.mem_cons.mp hy with rfl | hy
            · rw [h6 _ hnd.1, hnew]
              rfl
            · exact h5 y hy
          · rw [List.map_cons, List.mem_cons, not_or] at hb'
            rw [h6 b' hb'.2, Map.lookup_insertNew_ne _ _ hb'.1]
      | some p =>
          dsimp only at h
          rw [Option.bind_eq_bind, Option.bind_eq_some_iff] at h
          obtain ⟨e1, he1, h⟩ := h
          -- the page becomes readable further, which no mark sees
          have hstep : (∀ o b, e1.entry o b = e.entry o b) ∧
              ∀ q, (e1.searchIndex q).isDirty = (e.searchIndex q).isDirty := by
            rw [makeBlockReadableToOffset, Option.bind_eq_bind, Option.bind_eq_some_iff] at he1
            obtain ⟨pg, hpg, he1⟩ := he1
            have hpgeq : e.searchIndex p = pg := by
              rw [getPagePtr] at hpg
              split_ifs at hpg
              exact Option.some.inj hpg
            split_ifs at he1
            · rw [Option.some.injEq] at he1
              rw [← he1]
              refine ⟨fun _ _ => rfl, fun q => ?_⟩
              by_cases hq : q = p
              · rw [hq, searchIndex_setPage_self, hpgeq]
                rfl
              · rw [searchIndex_setPage_ne _ _ hq]
            · rw [Option.some.injEq] at he1
              rw [← he1]
              exact ⟨fun _ _ => rfl, fun _ => rfl⟩
          obtain ⟨h1, h2, h3, h4, h5, h6⟩ := ih hnd.2 (hfresh1 true) h
          refine ⟨fun o b => (h1 o b).trans (hstep.1 o b),
            fun q => (h2 q).trans (hstep.2 q), h3, ?_, fun y hy => ?_, fun b' hb' => ?_⟩
          · rw [h4, List.any_cons]
            simp
          · rcases List.mem_cons.mp hy with rfl | hy
            · rw [h6 _ hnd.1, hnew]
              rfl
            · exact h5 y hy
          · rw [List.map_cons, List.mem_cons, not_or] at hb'
            rw [h6 b' hb'.2, Map.lookup_insertNew_ne _ _ hb'.1]

/-- The loop of `get_data_blocks` leaves the flag of the item. -/
lemma dataSynced_getLoop (e : Engine) (cid : String) {l : List (ℤ × Bool)} {it it' : Item}
    {res res' : Map ℤ (Bool × (ℤ × ℤ))} (h : Cache.getLoop cfg e cid l it res = some (it', res')) :
    it'.dataSynced = it.dataSynced := by
  induction l generalizing it res with
  | nil =>
      rw [Cache.getLoop, Option.some.injEq, Prod.mk.injEq] at h
      rw [h.1]
  | cons x l ih =>
      rw [Cache.getLoop, Option.bind_eq_bind, Option.bind_eq_some_iff] at h
      obtain ⟨offs, -, h⟩ := h
      rw [ih h]
      split_ifs
      · rfl
      · rfl

namespace Cache

variable {c c' : Cache} {tbl : PageTable}

/-- The marks of the blocks are those of the pages, and the blocks of an item that is synced are
marked. -/
structure Marked (c : Cache) : Prop where
  flagged : Flagged c.engine
  items : ∀ o it, c.contents.lookup o = some it → it.dataSynced = true →
    ∀ b, c.engine.mark o b ≠ some false

/-- An owner without an item has no marks. -/
lemma Good.mark_eq_none (hG : c.Good cfg tbl) {o : String}
    (ho : c.contents.lookup o = none) (b : ℤ) :
    c.engine.mark o b = none :=
  hG.exact.mark_eq_none fun p hp => by
    have := hG.known p o b hp
    rw [ho] at this
    cases this

/-- **`put_data_blocks`** marks the blocks it stores as not synced. -/
theorem Good.putDataBlocks_marks (h : OnePage cfg) (hG : c.Good cfg tbl)
    (hM : c.Marked) {cid : String} (hcid : cid ≠ "none") {blocks : Map ℤ BlockPut}
    {op : AllocateOperationType} {d d' : Disk} (hl : cfg.applyLruEviction = false)
    {res : Map ℤ Bool} (hput : c.putDataBlocks cfg d cid blocks op = some (c', d', res)) :
    c'.Marked ∧ (∀ o b, c'.engine.mark o b = if o = cid ∧ b ∈ blocks.sorted.map Prod.fst then
      (if res.lookup b = some true then some false else none) else c.engine.mark o b) ∧
      ∀ b, res.lookup b = some true → b ∈ blocks.sorted.map Prod.fst := by
  obtain ⟨c1, it, m, hS⟩ := hG.putStart cid blocks (fun h => by rw [hl] at h; cases h)
    fun _ _ h => by rw [hl] at h; cases h
  -- the engine finds the pages, then the item takes the blocks in
  obtain ⟨e1, tbl1, alloc, hloop, hP, hkeys⟩ := hS.batch.placed h hcid op d ∅
    fun x _ => AList.lookup_empty x.1
  obtain ⟨hmark1, hflag1⟩ := hS.batch.marks h hcid (fun x _ => AList.lookup_empty x.1) hloop
  simp only [Cache.putDataBlocks, ← hS.start, Option.bind_eq_bind, hS.item, Option.bind_some,
    allocateBlocks, ← hS.mapping, hloop, Option.bind_eq_some_iff] at hput
  obtain ⟨⟨it', e2, res2, any⟩, hput, heq⟩ := hput
  rw [Option.some.injEq, Prod.mk.injEq, Prod.mk.injEq] at heq
  obtain ⟨rfl, -, rfl⟩ := heq
  obtain ⟨h1, h2, h3, h4, h5, h6⟩ := putLoop_marks blocks (Map.nodup_map_fst_sorted alloc)
    (fun x _ => AList.lookup_empty x.1) hput
  rw [Bool.false_or] at h4
  have hmark : ∀ o b, e2.mark o b = if o = cid ∧ b ∈ blocks.sorted.map Prod.fst then
      (if res2.lookup b = some true then some false else none) else c.engine.mark o b := by
    intro o b
    rw [mark_congr h1, hmark1, hS.engine]
    by_cases hob : o = cid ∧ b ∈ blocks.sorted.map Prod.fst
    · have hb := (hS.mem b).mpr hob.2
      obtain ⟨page, hpage, -⟩ := hP.placed b hb
      have hres := h5 (b, page) (Map.mem_sorted.mpr hpage)
      rw [if_pos hob, if_pos ⟨hob.1, hb⟩, hpage, hres]
      cases page
      · rfl
      · rfl
    · rw [if_neg hob, if_neg fun hc => hob ⟨hc.1, (hS.mem b).mp hc.2⟩]
  refine ⟨⟨(hflag1 (by rw [hS.engine]; exact hM.flagged)).congr h1 h2, fun o it2 ho hsync b => ?_⟩,
    hmark, fun b hb => ?_⟩
  rotate_left
  · by_contra hne
    have hnone : alloc.lookup b = none := hkeys b fun hm => hne ((hS.mem b).mp hm)
    have halloc : b ∉ alloc.sorted.map Prod.fst := by
      intro hm
      obtain ⟨⟨b', page⟩, hx, rfl⟩ := List.mem_map.mp hm
      rw [Map.mem_sorted, hnone] at hx
      cases hx
    rw [h6 b halloc] at hb
    cases hb
  -- an item flagged as synced has no block left to write
  show e2.mark o b ≠ some false
  have ho' : (c1.setItem cid (if any then it'.setDataSyncFlag false else it')).contents.lookup o
      = some it2 := ho
  rw [lookup_setItem] at ho'
  split_ifs at ho' with hoc hany
  · rw [← Option.some.inj ho'] at hsync
    cases hsync
  · -- no block of the batch found a page, and the item was synced before
    rw [← Option.some.inj ho', h3, hS.item_eq] at hsync
    rw [hoc, hmark]
    split_ifs with hb hr
    · obtain ⟨page, hpage, -⟩ := hP.placed b ((hS.mem b).mpr hb.2)
      have hmem := Map.mem_sorted.mpr hpage
      have hres := h5 (b, page) hmem
      rw [hr, Option.some.injEq] at hres
      refine absurd ?_ hany
      rw [h4, List.any_eq_true]
      exact ⟨(b, page), hmem, hres.symm⟩
    · simp
    · cases hold : c.contents.lookup cid with
      | none =>
          rw [hG.mark_eq_none hold]
          simp
      | some it0 =>
          rw [hold] at hsync
          exact hM.items cid it0 hold hsync b
  · rw [hS.others o hoc] at ho'
    rw [hmark, if_neg fun hc => hoc hc.1]
    exact hM.items o it2 ho' hsync b

/-- **`get_data_blocks`** changes no mark. -/
theorem Good.getDataBlocks_marks (hG : c.Good cfg tbl) (hM : c.Marked) {cid : String}
    {blocks : Map ℤ Mem} {found : Map ℤ (Bool × (ℤ × ℤ))} {buffers : Map ℤ Mem}
    (hget : c.getDataBlocks cfg cid blocks = some (c', found, buffers)) :
    c'.Marked ∧ ∀ o b, c'.engine.mark o b = c.engine.mark o b := by
  obtain ⟨c1, found1, buffers1, hget1, -, hsame, -⟩ := hG.getDataBlocks cid blocks
  rw [hget, Option.some.injEq, Prod.mk.injEq] at hget1
  obtain ⟨rfl, -⟩ := hget1
  have hmark : ∀ o b, c'.engine.mark o b = c.engine.mark o b := mark_congr hsame.entry
  refine ⟨⟨hM.flagged.congr hsame.entry fun q => by rw [hsame.searchIndex],
    fun o it ho hsync b => ?_⟩, hmark⟩
  rw [hmark]
  rw [Cache.getDataBlocks] at hget
  cases hit : c.contents.lookup cid with
  | none =>
      rw [hit, Option.some.injEq, Prod.mk.injEq] at hget
      rw [← hget.1] at ho
      exact hM.items o it ho hsync b
  | some it0 =>
      rw [hit] at hget
      dsimp only at hget
      rw [Option.bind_eq_bind, Option.bind_eq_some_iff] at hget
      obtain ⟨⟨it1, res⟩, hloop, heq⟩ := hget
      rw [Option.some.injEq, Prod.mk.injEq] at heq
      rw [← heq.1] at ho
      have ho' : (c.setItem cid it1).contents.lookup o = some it := ho
      rw [lookup_setItem] at ho'
      split_ifs at ho' with hoc
      · rw [← Option.some.inj ho', dataSynced_getLoop _ _ hloop] at hsync
        rw [hoc]
        exact hM.items cid it0 hit hsync b
      · exact hM.items o it ho' hsync b

/-- **`sync_owner`** marks every block of the owner as synced. -/
theorem Good.syncOwner_marks (hG : c.Good cfg tbl) (hM : c.Marked) {d d' : Disk} {owner : String}
    {only : Bool} {path : Path} {io : SyncIo} {r : ℤ}
    (hsync : c.syncOwner cfg d owner only path io = some (c', d', r)) :
    c'.Marked ∧ ∀ o b, c'.engine.mark o b
      = if o = owner then (c.engine.mark owner b).map fun _ => true else c.engine.mark o b := by
  rw [Cache.syncOwner] at hsync
  cases hit : c.contents.lookup owner with
  | none =>
      rw [hit, Option.some.injEq, Prod.mk.injEq] at hsync
      rw [← hsync.1]
      refine ⟨hM, fun o b => ?_⟩
      split_ifs with ho
      · rw [ho, hG.mark_eq_none hit]
        rfl
      · rfl
  | some it =>
      rw [hit] at hsync
      simp only [Option.bind_eq_bind, Option.bind_eq_some_iff] at hsync
      obtain ⟨⟨e', d1⟩, hpages, heq⟩ := hsync
      rw [Option.some.injEq, Prod.mk.injEq] at heq
      obtain ⟨hmark, hflag⟩ := syncPages_marks hG.rep hG.exact hM.flagged hpages
      rw [← heq.1]
      refine ⟨⟨hflag, fun o it1 ho hs b => ?_⟩, hmark⟩
      have ho' : (c.setItem owner (it.setDataSyncFlag true)).contents.lookup o = some it1 := ho
      show e'.mark o b ≠ some false
      rw [hmark]
      rw [lookup_setItem] at ho'
      split_ifs at ho' ⊢ with hoc
      · cases c.engine.mark owner b <;> simp
      · exact hM.items o it1 ho' hs b

/-- The removal of an item. -/
lemma Good.deleteItem_marks (h : OnePage cfg) (hG : c.Good cfg tbl) (hM : c.Marked) (cid : String) :
    (c.deleteItem cfg cid).Marked ∧ ∀ o b, (c.deleteItem cfg cid).engine.mark o b
      = if o = cid then none else c.engine.mark o b := by
  obtain ⟨hmark, hflag⟩ := (hG.rep.removeCachedBlocks h.oneBlock cid).marks hG.exact
  refine ⟨⟨hflag hM.flagged, fun o it ho hs b => ?_⟩, hmark⟩
  have ho' : (c.contents.erase cid).lookup o = some it := ho
  rw [Map.lookup_erase'] at ho'
  split_ifs at ho' with hoc
  show (c.engine.removeCachedBlocks cfg cid).mark o b ≠ some false
  rw [hmark, if_neg hoc]
  exact hM.items o it ho' hs b

/-- **`truncate_item`** changes no mark of a block that stays. -/
theorem Good.truncateItem_marks (h : OnePage cfg) (hG : c.Good cfg tbl) (hM : c.Marked)
    {owner : String} {newSize : ℕ} {r : Bool}
    (htrunc : c.truncateItem cfg owner newSize = some (c', r)) :
    c'.Marked ∧ ∀ o b, c'.engine.mark o b = c.engine.mark o b ∨
      o = owner ∧ c'.engine.mark o b = none := by
  rw [Cache.truncateItem] at htrunc
  cases hit : c.contents.lookup owner with
  | none =>
      rw [hit, Option.some.injEq, Prod.mk.injEq] at htrunc
      rw [← htrunc.1]
      exact ⟨hM, fun _ _ => .inl rfl⟩
  | some it =>
      rw [hit] at htrunc
      dsimp only at htrunc
      have hI := hG.items owner it hit
      split_ifs at htrunc with h0 hcount
      · rw [Option.some.injEq, Prod.mk.injEq] at htrunc
        rw [← htrunc.1]
        -- to nothing: all blocks are removed
        obtain ⟨hmark, hflag⟩ := (hG.rep.removeCachedBlocks h.oneBlock owner).marks hG.exact
        refine ⟨⟨hflag hM.flagged, fun o it1 ho hs b => ?_⟩, fun o b => ?_⟩
        · have ho' : (c.setItem owner { it with data := it.data.removeAllBlocks }).contents.lookup o
              = some it1 := ho
          show (c.engine.removeCachedBlocks cfg owner).mark o b ≠ some false
          rw [hmark]
          rw [lookup_setItem] at ho'
          split_ifs at ho' ⊢ with hoc
          · simp
          · exact hM.items o it1 ho' hs b
        · show (c.engine.removeCachedBlocks cfg owner).mark o b = _ ∨ _ ∧ _ = none
          rw [hmark]
          split_ifs with hoc
          · exact .inr ⟨hoc, rfl⟩
          · exact .inl rfl
      · rw [Option.some.injEq, Prod.mk.injEq] at htrunc
        rw [← htrunc.1]
        exact ⟨hM, fun _ _ => .inl rfl⟩
      · -- the item drops and cuts its blocks, and then the engine does
        simp only [Engine.truncateCachedBlocks, Option.bind_eq_bind,
          Option.bind_eq_some_iff] at htrunc
        obtain ⟨e', hloop, heq⟩ := htrunc
        rw [Option.some.injEq, Prod.mk.injEq] at heq
        obtain ⟨-, hres⟩ := truncateBlocksAfter_spec cfg it.data
          (toInt ((newSize : ℤ) / cfg.ioBlockSize)) ((newSize : ℤ) % cfg.ioBlockSize)
        have hperm := cfg.unordered_perm (it.data.truncateBlocksAfter cfg
          (toInt ((newSize : ℤ) / cfg.ioBlockSize)) ((newSize : ℤ) % cfg.ioBlockSize)).2.toList
        obtain ⟨hmark, hflag⟩ := truncateBlocks_marks h
          ((hperm.map Prod.fst).nodup_iff.mpr (Map.nodup_map_fst_toList _)) hG.rep hG.exact
          (fun x hx => by
            obtain ⟨b, page⟩ := x
            rw [hperm.mem_iff, Map.mem_toList, hres] at hx
            obtain ⟨-, info, hinfo, rfl⟩ := hx
            obtain ⟨p, h1, h2⟩ := hI.infos b info hinfo (by simp)
            exact ⟨p, h1, h2⟩) hloop
        rw [← heq.1]
        refine ⟨⟨hflag hM.flagged, fun o it1 ho hs b => ?_⟩, hmark⟩
        have ho' := ho
        show e'.mark o b ≠ some false
        -- the item that was cut is not synced
        dsimp only at ho'
        rw [lookup_setItem] at ho'
        split_ifs at ho' with hoc
        · rw [← Option.some.inj ho'] at hs
          cases hs
        · rcases hmark o b with h1 | ⟨h1, -⟩
          · rw [h1]
            exact hM.items o it1 ho' hs b
          · exact absurd h1 hoc

/-! ### Operations that only drop blocks -/

/-- The cache represents a table, with its marks. -/
def InOrder (cfg : Config) (c : Cache) : Prop := (∃ tbl, c.Good cfg tbl) ∧ c.Marked

/-- A later cache is in order and its marks are marks of the earlier one. -/
structure Forgets (cfg : Config) (c c' : Cache) : Prop where
  inOrder : c'.InOrder cfg
  marks : ∀ o b, c'.engine.mark o b = c.engine.mark o b ∨ c'.engine.mark o b = none

lemma Forgets.refl (hc : c.InOrder cfg) : c.Forgets cfg c := ⟨hc, fun _ _ => .inl rfl⟩

lemma Forgets.trans {c'' : Cache} (h1 : c.Forgets cfg c') (h2 : c'.Forgets cfg c'') :
    c.Forgets cfg c'' := by
  refine ⟨h2.inOrder, fun o b => ?_⟩
  rcases h2.marks o b with h | h
  · rw [h]
    exact h1.marks o b
  · exact .inr h

/-- A step that only drops blocks, taken for every element of a list. -/
lemma Forgets.foldl {α : Type} {f : Cache → α → Cache}
    (hf : ∀ (c : Cache) x, c.InOrder cfg → c.Forgets cfg (f c x)) (l : List α)
    (hc : c.InOrder cfg) :
    c.Forgets cfg (l.foldl f c) := by
  induction l generalizing c with
  | nil => exact .refl hc
  | cons x l ih => exact (hf c x hc).trans (ih (hf c x hc).inOrder)

lemma InOrder.setMapping (hc : c.InOrder cfg) (m : Map Path String) :
    c.Forgets cfg { c with fileInodeMapping := m } :=
  ⟨⟨hc.1.imp fun _ hG => hG.setMapping m, ⟨hc.2.flagged, hc.2.items⟩⟩, fun _ _ => .inl rfl⟩

/-- New metadata of an item. -/
lemma InOrder.setMetadata (hc : c.InOrder cfg) {cid : String} {it : Item}
    (hit : c.contents.lookup cid = some it) (newMeta : Metadata) (values : List MetaField) :
    c.Forgets cfg (c.setItem cid (it.updateMetadata newMeta values)) := by
  refine ⟨⟨hc.1.imp fun _ hG => hG.setItem hit rfl, hc.2.flagged, fun o it' ho hs b => ?_⟩,
    fun _ _ => .inl rfl⟩
  rw [lookup_setItem] at ho
  split_ifs at ho with hoc
  · rw [← Option.some.inj ho] at hs
    exact hc.2.items o it (hoc ▸ hit) hs b
  · exact hc.2.items o it' ho hs b

lemma InOrder.deleteItem (h : OnePage cfg) (hc : c.InOrder cfg) (cid : String) :
    c.Forgets cfg (c.deleteItem cfg cid) := by
  obtain ⟨⟨tbl, hG⟩, hM⟩ := hc
  obtain ⟨hM', hmark⟩ := hG.deleteItem_marks h hM cid
  refine ⟨⟨⟨_, hG.deleteItem h cid⟩, hM'⟩, fun o b => ?_⟩
  rw [hmark]
  split_ifs
  · exact .inr rfl
  · exact .inl rfl

lemma InOrder.updateContentMetadata (hc : c.InOrder cfg) (cid : String) (newMeta : Metadata)
    (values : List MetaField) : c.Forgets cfg (c.updateContentMetadata cid newMeta values) := by
  rw [Cache.updateContentMetadata]
  split
  · exact .refl hc
  · rename_i it hit
    exact hc.setMetadata hit newMeta values

lemma InOrder.insertInodeMapping (hc : c.InOrder cfg) (path : Path) (inode : String)
    (increase : Bool) : c.Forgets cfg (c.insertInodeMapping path inode increase) := by
  have h1 := hc.setMapping (c.fileInodeMapping.set path inode)
  rw [Cache.insertInodeMapping]
  dsimp only
  split_ifs
  · split
    · exact h1
    · exact h1.trans (h1.inOrder.updateContentMetadata _ _ _)
  · exact h1

lemma InOrder.renameItem (h : OnePage cfg) (hc : c.InOrder cfg) (oldCid newCid : Path) :
    c.Forgets cfg (c.renameItem cfg oldCid newCid) := by
  rw [Cache.renameItem]
  split
  · exact .refl hc
  · rename_i inode _
    have h1 := hc.setMapping (Map.set (c.fileInodeMapping.erase oldCid) newCid inode)
    dsimp only
    split
    · exact h1
    · rename_i it hit
      have h2 := h1.trans (h1.inOrder.setMetadata hit
        { Metadata.new with nlinks := max (it.metadata.nlinks - 1) 1 } [.nlinks])
      split_ifs
      · exact h2
      · exact h2.trans (h2.inOrder.deleteItem h _)

lemma InOrder.removeCachedItem (h : OnePage cfg) (hc : c.InOrder cfg) (owner : String) (path : Path)
    (isFromCache : Bool) : c.Forgets cfg (c.removeCachedItem cfg owner path isFromCache).1 := by
  rw [Cache.removeCachedItem]
  split
  · exact .refl hc
  · rename_i it hit
    have h1 := hc.setMapping (c.fileInodeMapping.erase path)
    have h2 := h1.trans (h1.inOrder.setMetadata hit
      { Metadata.new with nlinks := max (it.metadata.nlinks - 1) 1 } [.nlinks])
    dsimp only
    split_ifs
    · exact h2
    · exact h2.trans (h2.inOrder.deleteItem h _)

/-- **`clear_all_cache`**. -/
theorem InOrder.clearAllCache (h : OnePage cfg) (hc : c.InOrder cfg) :
    c.Forgets cfg (c.clearAllCache cfg) := by
  have h1 := Forgets.foldl (fun c x hc => InOrder.removeCachedItem h hc x.2 x.1 true)
    (cfg.unordered c.fileInodeMapping.toList) hc
  exact h1.trans (Forgets.foldl (fun c cid hc => InOrder.deleteItem h hc cid) _ h1.inOrder)

end Cache

end LazyFS
