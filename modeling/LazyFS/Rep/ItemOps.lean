import LazyFS.Rep.CacheOps

/-!
The operations on whole items keep the cache in order: `truncate_item`, `sync_owner`,
`remove_cached_item`, `rename_item` and `clear_all_cache`.

* `truncateLoop_spec` and `truncateBlocks_ok`: the loops over the block infos and over the pages
  of a truncation.
* `Good.truncateItem`, `Good.syncOwner`, `Good.deleteItem`, `Good.renameItem`,
  `Good.removeCachedItem`, `Good.clearAllCache`.
-/

namespace LazyFS

open Engine

variable {cfg : Config}

/-! ### `truncate_blocks_after` -/

/-- A block goes when it starts at or past the cut. -/
def Gone (blkId index b : ℤ) : Prop := blkId < b ∨ b = blkId ∧ index = 0

instance (blkId index b : ℤ) : Decidable (Gone blkId index b) := inferInstanceAs (Decidable (_ ∨ _))

/-- What is known about a block after the truncation. -/
def Data.cut (d : Data) (blkId index b : ℤ) : Option BlockInfo :=
  if Gone blkId index b then none
  else if b = blkId then (d.blocks.lookup b).map fun i => i.truncateReadableTo (index - 1)
  else d.blocks.lookup b

/-- One turn of the loop: the block at hand is cut, and its page is named where it is at or past
the cut. -/
lemma truncateLoop_turn (blkId index : ℤ) {bId : ℤ} (info : BlockInfo) (l : List (ℤ × BlockInfo))
    (d : Data) {res : Map ℤ (Option ℕ)} (hres0 : res.lookup bId = none) :
    ∃ d1 res1, Data.truncateLoop blkId index ((bId, info) :: l) d res
        = Data.truncateLoop blkId index l d1 res1 ∧
      d1.blocks.lookup bId = d.cut blkId index bId ∧
      (∀ k, k ≠ bId → d1.blocks.lookup k = d.blocks.lookup k) ∧
      (∀ k, k ≠ bId → res1.lookup k = res.lookup k) ∧
      (bId < blkId → res1.lookup bId = res.lookup bId) ∧
      (blkId ≤ bId → res1.lookup bId = some info.pageIndexNumber) := by
  by_cases hle : blkId ≤ bId
  · have hins : (res.insertNew bId info.pageIndexNumber).lookup bId
        = some info.pageIndexNumber := by
      rw [Map.lookup_insertNew, if_pos rfl, hres0, Option.getD_none]
    by_cases hgone : Gone blkId index bId
    · -- the block goes
      refine ⟨d.removeBlock bId, res.insertNew bId info.pageIndexNumber, ?_, ?_, fun k hk => ?_,
        fun k hk => Map.lookup_insertNew_ne _ _ hk, fun h => absurd hle (by omega),
        fun _ => hins⟩
      · rw [Data.truncateLoop, if_pos hle]
        rcases hgone with h | ⟨h, h0⟩
        · rw [if_pos h]
        · rw [if_neg (by omega), if_pos h0]
      · rw [Data.cut, if_pos hgone, Data.removeBlock, Map.lookup_erase', if_pos rfl]
      · rw [Data.removeBlock, Map.lookup_erase', if_neg hk]
    · -- it is the one that is cut
      have hb : bId = blkId := by
        rw [Gone] at hgone
        omega
      have h0 : index ≠ 0 := fun h0 => hgone (.inr ⟨hb, h0⟩)
      refine ⟨⟨d.blocks.update blkId fun b => b.truncateReadableTo (index - 1)⟩,
        res.insertNew bId info.pageIndexNumber, ?_, ?_, fun k hk => ?_,
        fun k hk => Map.lookup_insertNew_ne _ _ hk, fun h => absurd hle (by omega),
        fun _ => hins⟩
      · rw [Data.truncateLoop, if_pos hle, if_neg (by omega), if_neg h0]
      · rw [Data.cut, if_neg hgone, if_pos hb, Map.lookup_update, if_pos hb, hb]
      · rw [Map.lookup_update_ne _ _ (hb ▸ hk)]
  · -- it lies before the cut
    refine ⟨d, res, by rw [Data.truncateLoop, if_neg hle], ?_, fun _ _ => rfl, fun _ _ => rfl,
      fun _ => rfl, fun h => absurd h hle⟩
    have hgone : ¬ Gone blkId index bId := by
      rw [Gone]
      omega
    rw [Data.cut, if_neg hgone, if_neg (by omega)]

/-- The loop that erases while it iterates: every block listed is cut, and the result names the
pages of those at or past the block of the cut. -/
lemma truncateLoop_spec (blkId index : ℤ) (l : List (ℤ × BlockInfo)) (hnd : (l.map Prod.fst).Nodup)
    (d : Data) (res : Map ℤ (Option ℕ)) (hfresh : ∀ x ∈ l, res.lookup x.1 = none) :
    (∀ b, (Data.truncateLoop blkId index l d res).1.blocks.lookup b
      = if b ∈ l.map Prod.fst then d.cut blkId index b else d.blocks.lookup b) ∧
    (∀ b, b ∉ l.map Prod.fst ∨ b < blkId →
      (Data.truncateLoop blkId index l d res).2.lookup b = res.lookup b) ∧
    ∀ b info, (b, info) ∈ l → blkId ≤ b →
      (Data.truncateLoop blkId index l d res).2.lookup b = some info.pageIndexNumber := by
  induction l generalizing d res with
  | nil => exact ⟨fun _ => by simp [Data.truncateLoop], fun _ _ => rfl, fun _ _ h =>
    absurd h (by simp)⟩
  | cons x l ih =>
      obtain ⟨bId, info⟩ := x
      rw [List.map_cons, List.nodup_cons] at hnd
      have hne : ∀ y ∈ l, y.1 ≠ bId := fun y hy h => hnd.1 (List.mem_map.mpr ⟨y, hy, h⟩)
      obtain ⟨d1, res1, heq, hd1, hd1', hres1, hres1', hres1''⟩ :=
        truncateLoop_turn blkId index info l d (hfresh _ List.mem_cons_self)
      obtain ⟨h1, h2, h3⟩ := ih hnd.2 d1 res1 fun y hy => by
        rw [hres1 _ (hne y hy)]
        exact hfresh y (List.mem_cons_of_mem _ hy)
      -- the rest of the list, which does not come back to this block
      rw [heq]
      refine ⟨fun b => ?_, fun b hb => ?_, fun b info' hb hle => ?_⟩
      · rw [h1]
        by_cases hb : b = bId
        · subst hb
          rw [if_neg hnd.1, hd1, if_pos (by simp)]
        · have hcut : d1.cut blkId index b = d.cut blkId index b := by
            rw [Data.cut, Data.cut, hd1' b hb]
          have hiff : b ∈ ((bId, info) :: l).map Prod.fst ↔ b ∈ l.map Prod.fst := by
            rw [List.map_cons, List.mem_cons]
            tauto
          rw [hcut, hd1' b hb, if_congr hiff rfl rfl]
      · by_cases hbb : b = bId
        · subst hbb
          have hlt : b < blkId := hb.resolve_left (by simp)
          rw [h2 b (.inr hlt), hres1' hlt]
        · rw [h2 b (hb.imp_left fun h hm => h (by
            rw [List.map_cons]
            exact List.mem_cons_of_mem _ hm)), hres1 b hbb]
      · rcases List.mem_cons.mp hb with hb | hb
        · rw [Prod.mk.injEq] at hb
          obtain ⟨rfl, rfl⟩ := hb
          rw [h2 b (.inl hnd.1), hres1'' hle]
        · exact h3 b info' hb hle

variable (cfg) in
/-- `truncate_blocks_after` on an item. -/
lemma truncateBlocksAfter_spec (d : Data) (blkId index : ℤ) :
    (∀ b, (d.truncateBlocksAfter cfg blkId index).1.blocks.lookup b = d.cut blkId index b) ∧
    ∀ b page, (d.truncateBlocksAfter cfg blkId index).2.lookup b = some page ↔
      blkId ≤ b ∧ ∃ info, d.blocks.lookup b = some info ∧ info.pageIndexNumber = page := by
  have hperm := cfg.unordered_perm d.blocks.toList
  have hkeys : ∀ b, b ∈ (cfg.unordered d.blocks.toList).map Prod.fst ↔
      (d.blocks.lookup b).isSome := by
    intro b
    rw [(hperm.map Prod.fst).mem_iff, List.mem_map, Option.isSome_iff_exists]
    constructor
    · rintro ⟨⟨b', info⟩, h, rfl⟩
      exact ⟨info, Map.mem_toList.mp h⟩
    · rintro ⟨info, h⟩
      exact ⟨(b, info), Map.mem_toList.mpr h, rfl⟩
  obtain ⟨h1, h2, h3⟩ := truncateLoop_spec blkId index (cfg.unordered d.blocks.toList)
    ((hperm.map Prod.fst).nodup_iff.mpr (Map.nodup_map_fst_toList _)) d ∅
    (fun x _ => AList.lookup_empty x.1)
  refine ⟨fun b => ?_, fun b page => ?_⟩
  · rw [Data.truncateBlocksAfter, h1]
    split_ifs with hb
    · rfl
    · rw [hkeys, Option.not_isSome_iff_eq_none] at hb
      rw [Data.cut, hb]
      split_ifs <;> rfl
  · rw [Data.truncateBlocksAfter]
    constructor
    · intro hb
      by_cases hc : b ∉ (cfg.unordered d.blocks.toList).map Prod.fst ∨ b < blkId
      · rw [h2 b hc, AList.lookup_empty] at hb
        cases hb
      · rw [not_or, not_not, not_lt] at hc
        obtain ⟨info, hinfo⟩ := Option.isSome_iff_exists.mp ((hkeys b).mp hc.1)
        rw [h3 b info (hperm.mem_iff.mpr (Map.mem_toList.mpr hinfo)) hc.2, Option.some.injEq] at hb
        exact ⟨hc.2, info, hinfo, hb⟩
    · rintro ⟨hle, info, hinfo, rfl⟩
      exact h3 b info (hperm.mem_iff.mpr (Map.mem_toList.mpr hinfo)) hle

/-! ### `truncate_cached_blocks` -/

/-- The page of the block of the cut. -/
def Page.cutAt (cfg : Config) (b index : ℤ) (pg : Page) : Page :=
  (pg.makeBlockReadableTo b (index - 1)).writeNullFrom cfg b index

/-- What the loop over the blocks `bs` of an owner does to the pages. -/
structure CutBlocks (cfg : Config) (e : Engine) (tbl : PageTable) (o : String) (blkId index : ℤ)
    (bs : List ℤ) (e' : Engine) (tbl' : PageTable) : Prop where
  table : ∀ p ob, tbl' p = some ob ↔
    tbl p = some ob ∧ ¬ (ob.1 = o ∧ ob.2 ∈ bs ∧ Gone blkId index ob.2)
  edge : ∀ p b, tbl p = some (o, b) → b ∈ bs → ¬ Gone blkId index b →
    e'.searchIndex p = (e.searchIndex p).cutAt cfg b index
  same : ∀ p, (∀ b ∈ bs, tbl p ≠ some (o, b)) → e'.searchIndex p = e.searchIndex p
  entry : ∀ o' b, e'.entry o' b
    = if o' = o ∧ b ∈ bs ∧ Gone blkId index b then none else e.entry o' b

/-- The other owners do not notice. -/
lemma CutBlocks.other {e e' : Engine} {tbl tbl' : PageTable} {o : String} {blkId index : ℤ}
    {bs : List ℤ} (hc : CutBlocks cfg e tbl o blkId index bs e' tbl') (p : ℕ) {o' : String}
    (b : ℤ) (ho : o' ≠ o) :
    (tbl' p = some (o', b) ↔ tbl p = some (o', b)) ∧
      (tbl p = some (o', b) → e'.searchIndex p = e.searchIndex p) := by
  refine ⟨by simp [hc.table, ho], fun hp => hc.same p fun b' _ hb' => ?_⟩
  rw [hp, Option.some.injEq, Prod.mk.injEq] at hb'
  exact ho hb'.1

section TruncateBlocks

variable {it : Item} {e e1 e' : Engine} {tbl tbl' : PageTable} {o : String} {blkId index b : ℤ}
  {bs : List ℤ} {p : ℕ}

lemma update_none_eq_some {ob : String × ℤ} (q : ℕ) :
    Function.update tbl p none q = some ob ↔ q ≠ p ∧ tbl q = some ob := by
  by_cases hq : q = p
  · simp [hq]
  · simp [hq]

/-- A block has one page, so that another block of the owner is in another page. -/
lemma ne_page_of_ne {q : ℕ} {b' : ℤ} (hp : tbl p = some (o, b)) (hq : tbl q = some (o, b'))
    (hb : b' ≠ b) : q ≠ p := by
  rintro rfl
  rw [hp, Option.some.injEq, Prod.mk.injEq] at hq
  exact hb hq.2.symm

variable (hinj : ∀ p q b, tbl p = some (o, b) → tbl q = some (o, b) → p = q)
  (hp : tbl p = some (o, b))

include hinj hp in
/-- The item when a block that it has no info of leaves its page. -/
lemma ItemOk.dropBlock (hI : ItemOk it e tbl o (b :: bs)) (hnone : it.data.blocks.lookup b = none)
    (hd : Dropped cfg e tbl p o b e1) : ItemOk it e1 (Function.update tbl p none) o bs := by
  refine ⟨fun q b' hq hb => ?_, fun q b' hq hb => ?_, fun b' info hinfo hb => ?_⟩
  · obtain ⟨hqp, hq⟩ := (update_none_eq_some q).mp hq
    have hbb : b' ≠ b := fun heq => hqp (hinj q p b (heq ▸ hq) hp)
    obtain ⟨info, h1, h2, h3⟩ := hI.reads q b' hq (by simp only [List.mem_cons]; tauto)
    exact ⟨info, h1, h2, by rw [hd.searchIndex q hqp]; exact h3⟩
  · obtain ⟨hqp, hq⟩ := (update_none_eq_some q).mp hq
    obtain ⟨r, hr⟩ := hI.begun q b' hq (by simp only [List.mem_cons]; tauto)
    exact ⟨r, by rw [hd.searchIndex q hqp]; exact hr⟩
  · have hbb : b' ≠ b := fun heq => by rw [heq, hnone] at hinfo; cases hinfo
    obtain ⟨q, h1, h2⟩ := hI.infos b' info hinfo (by simp only [List.mem_cons]; tauto)
    exact ⟨q, h1, (update_none_eq_some q).mpr ⟨ne_page_of_ne hp h2 hbb, h2⟩⟩

include hinj hp in
/-- The item when the page of the block of the cut learns the end that the item knows. -/
lemma ItemOk.cutBlock (hI : ItemOk it e tbl o (b :: bs)) (hb : b ∉ bs) {info : BlockInfo}
    (hinfo : it.data.blocks.lookup b = some info) (hip : info.pageIndexNumber = some p)
    (hir : info.readableOffset.2 = index - 1) :
    ItemOk it (e.setPage p ((e.searchIndex p).cutAt cfg b index)) tbl o bs := by
  refine ⟨fun q b' hq hb' => ?_, fun q b' hq hb' => ?_, fun b' info' hinfo' hb' => ?_⟩
  · by_cases hbb : b' = b
    · subst hbb
      obtain rfl := hinj q p b' hq hp
      refine ⟨info, hinfo, hip, ?_⟩
      obtain ⟨r, hr⟩ := hI.begun q b' hq List.mem_cons_self
      rw [searchIndex_setPage_self, hir]
      exact UsedPage.readsTo_makeBlockReadableTo hr (index - 1)
    · obtain ⟨info', h1, h2, h3⟩ := hI.reads q b' hq (by simp only [List.mem_cons]; tauto)
      refine ⟨info', h1, h2, ?_⟩
      rw [searchIndex_setPage_ne _ _ (ne_page_of_ne hp hq hbb)]
      exact h3
  · have hbb : b' ≠ b := fun heq => hb (heq ▸ hb')
    rw [searchIndex_setPage_ne _ _ (ne_page_of_ne hp hq hbb)]
    exact hI.begun q b' hq (List.mem_cons_of_mem _ hb')
  · by_cases hbb : b' = b
    · subst hbb
      rw [hinfo, Option.some.injEq] at hinfo'
      exact ⟨p, hinfo' ▸ hip, hp⟩
    · exact hI.infos b' info' hinfo' (by simp only [List.mem_cons]; tauto)

include hinj hp in
/-- A turn on a block that goes, before the turns on the others. -/
lemma CutBlocks.cons_gone (hg : Gone blkId index b) (hd : Dropped cfg e tbl p o b e1)
    (hc : CutBlocks cfg e1 (Function.update tbl p none) o blkId index bs e' tbl') :
    CutBlocks cfg e tbl o blkId index (b :: bs) e' tbl' := by
  refine ⟨fun q ob => ?_, fun q b' hq hb hg' => ?_, fun q hq => ?_, fun o' b' => ?_⟩
  · rw [hc.table, update_none_eq_some, List.mem_cons]
    by_cases hqp : q = p
    · subst hqp
      refine ⟨fun h => absurd rfl h.1.1, fun h => absurd ?_ h.2⟩
      rw [hp, Option.some.injEq] at h
      rw [← h.1]
      exact ⟨rfl, .inl rfl, hg⟩
    · have hne : tbl q = some ob → ob.1 = o → ob.2 ≠ b := by
        rintro hq rfl rfl
        exact hqp (hinj q p ob.2 hq hp)
      constructor
      · exact fun h => ⟨h.1.2, fun hx =>
          h.2 ⟨hx.1, hx.2.1.resolve_left (hne h.1.2 hx.1), hx.2.2⟩⟩
      · exact fun h => ⟨⟨hqp, h.1⟩, fun hx => h.2 ⟨hx.1, .inr hx.2.1, hx.2.2⟩⟩
  · have hbb : b' ≠ b := fun heq => hg' (heq ▸ hg)
    have hqp := ne_page_of_ne hp hq hbb
    rw [hc.edge q b' ((update_none_eq_some q).mpr ⟨hqp, hq⟩)
      ((List.mem_cons.mp hb).resolve_left hbb) hg', hd.searchIndex q hqp]
  · have hqp : q ≠ p := fun heq => hq b List.mem_cons_self (heq ▸ hp)
    rw [hc.same q fun b' hb' hq' =>
      hq b' (List.mem_cons_of_mem _ hb') ((update_none_eq_some q).mp hq').2, hd.searchIndex q hqp]
  · rw [hc.entry, hd.entry]
    by_cases hbb : b' = b
    · by_cases ho : o' = o
      · simp [hbb, ho, hg]
      · simp [ho]
    · rw [if_neg (show ¬ (o' = o ∧ b' = b) from fun hx => hbb hx.2)]
      exact if_congr (by simp [hbb]) rfl rfl

include hinj hp in
/-- The turn on the block of the cut, before the turns on the others. -/
lemma CutBlocks.cons_cut (hg : ¬ Gone blkId index b) (hb : b ∉ bs)
    (hc : CutBlocks cfg (e.setPage p ((e.searchIndex p).cutAt cfg b index)) tbl o blkId index bs
      e' tbl') : CutBlocks cfg e tbl o blkId index (b :: bs) e' tbl' := by
  refine ⟨fun q ob => ?_, fun q b' hq hb' hg' => ?_, fun q hq => ?_, fun o' b' => ?_⟩
  · rw [hc.table, List.mem_cons]
    refine and_congr_right fun _ => not_congr (and_congr_right fun _ => ?_)
    refine ⟨fun hx => ⟨.inr hx.1, hx.2⟩, fun hx => ⟨hx.1.resolve_left ?_, hx.2⟩⟩
    exact fun heq => hg (show Gone _ _ _ from (show ob.2 = b from heq) ▸ hx.2)
  · by_cases hbb : b' = b
    · -- the page of the block is left alone by the turns after its own
      subst hbb
      obtain rfl := hinj q p b' hq hp
      have hrest : ∀ b'' ∈ bs, tbl q ≠ some (o, b'') := by
        intro b'' hb'' hq'
        rw [hq, Option.some.injEq, Prod.mk.injEq] at hq'
        exact hb (hq'.2 ▸ hb'')
      rw [hc.same q hrest, searchIndex_setPage_self]
    · rw [hc.edge q b' hq ((List.mem_cons.mp hb').resolve_left hbb) hg',
        searchIndex_setPage_ne _ _ (ne_page_of_ne hp hq hbb)]
  · have hqp : q ≠ p := fun heq => hq b List.mem_cons_self (heq ▸ hp)
    rw [hc.same q fun b' hb' => hq b' (List.mem_cons_of_mem _ hb'), searchIndex_setPage_ne _ _ hqp]
  · rw [hc.entry, entry_setPage]
    by_cases hbb : b' = b
    · subst hbb
      simp [hg]
    · exact if_congr (by simp [hbb]) rfl rfl

/-- The loop over the pages: blocks past the cut leave their pages, the block of the cut stays with
a lower readable end, and the item that was already cut is in order again. -/
lemma truncateBlocks_ok (h : OnePage cfg) (hindex : 0 ≤ index) (l : List (ℤ × Option ℕ))
    (hnd : (l.map Prod.fst).Nodup) (hR : Rep cfg e tbl none) (hX : Exact cfg e tbl)
    (hI : ItemOk it e tbl o (l.map Prod.fst))
    (hinj : ∀ p q b, tbl p = some (o, b) → tbl q = some (o, b) → p = q)
    (hl : ∀ x ∈ l, blkId ≤ x.1 ∧ ∃ p, x.2 = some p ∧ tbl p = some (o, x.1) ∧
      (Gone blkId index x.1 → it.data.blocks.lookup x.1 = none) ∧
      (¬ Gone blkId index x.1 → ∃ info, it.data.blocks.lookup x.1 = some info ∧
        info.pageIndexNumber = some p ∧ info.readableOffset.2 = index - 1)) :
    ∃ e' tbl', l.foldlM (truncateBlock cfg o blkId index) e = some e' ∧ Rep cfg e' tbl' none ∧
      Exact cfg e' tbl' ∧ ItemOk it e' tbl' o [] ∧
      CutBlocks cfg e tbl o blkId index (l.map Prod.fst) e' tbl' := by
  induction l generalizing e tbl with
  | nil => exact ⟨e, tbl, rfl, hR, hX, hI, by simp, by simp, fun _ _ => rfl, by simp⟩
  | cons x l ih =>
      obtain ⟨b, page⟩ := x
      rw [List.map_cons, List.nodup_cons] at hnd
      obtain ⟨hle, p, hpage, hp, hgone, hcut⟩ := hl _ List.mem_cons_self
      dsimp only at hle hpage hp hgone hcut
      subst hpage
      by_cases hg : Gone blkId index b
      · -- the first block goes
        have hi : ¬ (b = blkId ∧ 0 < index) := by
          rw [Gone] at hg
          omega
        obtain ⟨e1, he1, hd⟩ := hR.truncateBlock_whole h.oneBlock hp hi
        obtain ⟨e', tbl', h1, h2, h3, h4, h5⟩ := ih hnd.2 hd.rep (hd.exact hp hX)
          (hI.dropBlock hinj hp (hgone hg) hd)
          (fun q q' b' hq hq' => hinj q q' b' ((update_none_eq_some q).mp hq).2
            ((update_none_eq_some q').mp hq').2)
          (fun y hy => by
            obtain ⟨h6, q, h7, h8, h9, h10⟩ := hl y (List.mem_cons_of_mem _ hy)
            have hyb : y.1 ≠ b := fun heq => hnd.1 (List.mem_map.mpr ⟨y, hy, heq⟩)
            exact ⟨h6, q, h7, (update_none_eq_some q).mpr ⟨ne_page_of_ne hp h8 hyb, h8⟩, h9, h10⟩)
        refine ⟨e', tbl', ?_, h2, h3, h4, h5.cons_gone hinj hp hg hd⟩
        rw [List.foldlM_cons, he1]
        exact h1
      · -- it is cut in its page
        obtain ⟨info, hinfo, hip, hir⟩ := hcut hg
        have hb : b = blkId ∧ 0 < index := by
          rw [Gone] at hg
          omega
        obtain ⟨rfl, hpos⟩ := hb
        have hR1 : Rep cfg (e.setPage p ((e.searchIndex p).cutAt cfg b index)) tbl none :=
          hR.setPage hp (((hR.usedPage hp).makeBlockReadableTo _ _).writeNullFrom _ _)
        obtain ⟨e', tbl', h1, h2, h3, h4, h5⟩ := ih hnd.2 hR1 ⟨hX.of_entry, hX.entry_of⟩
          (hI.cutBlock hinj hp hnd.1 hinfo hip hir) hinj
          (fun y hy => hl y (List.mem_cons_of_mem _ hy))
        refine ⟨e', tbl', ?_, h2, h3, h4, h5.cons_cut hinj hp hg hnd.1⟩
        rw [List.foldlM_cons, hR.truncateBlock_partial hp hpos]
        exact h1

end TruncateBlocks

namespace Cache

variable {c c' : Cache} {tbl : PageTable}

/-- The other items do not notice a change of the blocks of one owner. -/
lemma Good.of_owner (hG : c.Good cfg tbl) {o : String} {it : Item} {e' : Engine} {tbl' : PageTable}
    (hit : (c.contents.lookup o).isSome) (hR : Rep cfg e' tbl' none) (hX : Exact cfg e' tbl')
    (hI : ItemOk it e' tbl' o [])
    (hother : ∀ p o' b, o' ≠ o → (tbl' p = some (o', b) ↔ tbl p = some (o', b)) ∧
      (tbl p = some (o', b) → e'.searchIndex p = c.engine.searchIndex p)) :
    Good cfg { (c.setItem o it) with engine := e' } tbl' where
  rep := hR
  exact := hX
  items := fun o' it' ho' => by
    have ho'' : (c.setItem o it).contents.lookup o' = some it' := ho'
    rw [lookup_setItem] at ho''
    split_ifs at ho'' with hoc
    · rw [Option.some.injEq] at ho''
      subst ho'' hoc
      exact hI
    · refine (hG.items o' it' ho'').congr (fun p b => (hother p o' b hoc).1) fun p b hp => ?_
      rw [(hother p o' b hoc).2 hp]
  known := fun p o' b hp => by
    show ((c.setItem o it).contents.lookup o').isSome
    rw [lookup_setItem]
    split_ifs with hoc
    · rfl
    · exact hG.known p o' b ((hother p o' b hoc).1.mp hp)

/-- The cache after the blocks of an item that are gone have left it and the block of the cut ends
before `index`. -/
structure Cut (cfg : Config) (c : Cache) (tbl : PageTable) (owner : String) (it : Item)
    (gone edge : ℤ → Prop) (index : ℤ) (c' : Cache) (tbl' : PageTable) : Prop where
  good : c'.Good cfg tbl'
  names : c'.fileInodeMapping = c.fileInodeMapping
  others : ∀ o, o ≠ owner → c'.contents.lookup o = c.contents.lookup o
  item : ∃ it', c'.contents.lookup owner = some it' ∧ it'.metadata = it.metadata ∧
    (∀ b, gone b → it'.data.blocks.lookup b = none) ∧
    (∀ b, ¬ gone b → edge b → it'.data.blocks.lookup b
      = (it.data.blocks.lookup b).map fun i => i.truncateReadableTo (index - 1)) ∧
    ∀ b, ¬ gone b → ¬ edge b → it'.data.blocks.lookup b = it.data.blocks.lookup b
  table : ∀ p ob, tbl' p = some ob ↔ tbl p = some ob ∧ ¬ (ob.1 = owner ∧ gone ob.2)
  edgePage : ∀ p b, tbl p = some (owner, b) → ¬ gone b → edge b →
    c'.engine.searchIndex p = (c.engine.searchIndex p).cutAt cfg b index
  samePage : ∀ p o b, tbl p = some (o, b) → (o = owner → ¬ gone b ∧ ¬ edge b) →
    c'.engine.searchIndex p = c.engine.searchIndex p
  entry : ∀ o b, ¬ (o = owner ∧ gone b) → c'.engine.entry o b = c.engine.entry o b

/-- `truncate_item` to size `0`. -/
lemma Good.truncateItem_zero (h : OnePage cfg) (hG : c.Good cfg tbl) {owner : String} {it : Item}
    (hit : c.contents.lookup owner = some it) (index : ℤ) :
    ∃ c' tbl', c.truncateItem cfg owner 0 = some (c', true) ∧
      Cut cfg c tbl owner it (fun _ => True) (fun _ => False) index c' tbl' := by
  have hI := hG.items owner it hit
  by_cases hc : 0 < it.data.countBlocks
  · -- all blocks are removed, from the item and from the engine
    have hrm := hG.rep.removeCachedBlocks h.oneBlock owner
    refine ⟨{ (c.setItem owner { it with data := it.data.removeAllBlocks }) with
      engine := c.engine.removeCachedBlocks cfg owner }, tbl.without owner, ?_, ?_, rfl,
      fun o ho => ?_, ⟨{ it with data := it.data.removeAllBlocks }, ?_, rfl, fun b _ => ?_,
        fun b hb => absurd trivial hb, fun b hb => absurd trivial hb⟩, fun p ob => ?_,
      fun p b _ hb => absurd trivial hb, fun p o b hp ho => ?_, fun o b ho => ?_⟩
    · rw [Cache.truncateItem, hit]
      simp only [if_true, hc]
    · refine hG.of_owner (by rw [hit]; rfl) hrm.rep (hrm.exact hG.exact) ?_ fun p o' b ho => ?_
      · refine ⟨fun p b hp => ?_, fun p b hp => ?_, fun b info hinfo => ?_⟩
        · exact absurd rfl (PageTable.without_eq_some.mp hp).1
        · exact absurd rfl (PageTable.without_eq_some.mp hp).1
        · simp only [Data.removeAllBlocks, AList.lookup_empty] at hinfo
          cases hinfo
      · rw [PageTable.without_eq_some]
        exact ⟨and_iff_right ho, fun hp => hrm.searchIndex p o' b hp ho⟩
    · show (c.setItem owner _).contents.lookup o = _
      rw [lookup_setItem, if_neg ho]
    · show (c.setItem owner _).contents.lookup owner = _
      rw [lookup_setItem, if_pos rfl]
    · rw [Data.removeAllBlocks, AList.lookup_empty]
    · obtain ⟨o, b⟩ := ob
      rw [PageTable.without_eq_some, and_true, and_comm]
    · exact hrm.searchIndex p o b hp fun heq => absurd trivial (ho heq).1
    · exact (hrm.entry o b).trans (if_neg fun heq => ho ⟨heq, trivial⟩)
  · -- an item without blocks is left as it is
    have hnone : ∀ b, it.data.blocks.lookup b = none := by
      intro b
      have hnil : it.data.blocks.entries = [] := List.eq_nil_of_length_eq_zero (by
        rw [Data.countBlocks] at hc
        omega)
      rw [AList.lookup, hnil]
      rfl
    refine ⟨c, tbl, ?_, hG, rfl, fun _ _ => rfl, ⟨it, hit, rfl, fun b _ => hnone b,
      fun b hb => absurd trivial hb, fun b hb => absurd trivial hb⟩, fun p ob => ?_,
      fun p b _ hb => absurd trivial hb, fun _ _ _ _ _ => rfl, fun _ _ _ => rfl⟩
    · rw [Cache.truncateItem, hit]
      simp only [if_true, hc, if_false]
    · obtain ⟨o, b⟩ := ob
      refine ⟨fun hp => ⟨hp, ?_⟩, And.left⟩
      rintro ⟨rfl, -⟩
      obtain ⟨info, hinfo, -, -⟩ := hI.reads p b hp (by simp)
      rw [hnone] at hinfo
      cases hinfo

variable (cfg) in
/-- The pages that the loop of a truncation is given: those of the blocks from the cut on. -/
lemma mem_truncateBlocksAfter (d : Data) (blkId index b : ℤ) (page : Option ℕ) :
    (b, page) ∈ cfg.unordered (d.truncateBlocksAfter cfg blkId index).2.toList ↔
      blkId ≤ b ∧ ∃ info, d.blocks.lookup b = some info ∧ info.pageIndexNumber = page := by
  rw [(cfg.unordered_perm _).mem_iff, Map.mem_toList, (truncateBlocksAfter_spec cfg d _ _).2]

/-- The item between the two loops of a truncation: it has forgotten the blocks that are still in
their pages. -/
lemma itemOk_of_cut {it it' : Item} {e : Engine} {owner : String} (hI : ItemOk it e tbl owner [])
    {blkId index : ℤ} (hcut : ∀ b, it'.data.blocks.lookup b = it.data.cut blkId index b)
    {l : List (ℤ × Option ℕ)} (hmem : ∀ b page, (b, page) ∈ l ↔
      blkId ≤ b ∧ ∃ info, it.data.blocks.lookup b = some info ∧ info.pageIndexNumber = page) :
    ItemOk it' e tbl owner (l.map Prod.fst) := by
  -- a block before the cut is left alone
  have hkept : ∀ b, b ∉ l.map Prod.fst → (it.data.blocks.lookup b).isSome →
      it'.data.blocks.lookup b = it.data.blocks.lookup b := by
    intro b hb hs
    obtain ⟨info, hinfo⟩ := Option.isSome_iff_exists.mp hs
    have hlt : ¬ blkId ≤ b := fun hle =>
      hb (List.mem_map.mpr ⟨(b, info.pageIndexNumber), (hmem b _).mpr ⟨hle, info, hinfo, rfl⟩, rfl⟩)
    have hg : ¬ Gone blkId index b := by
      rw [Gone]
      omega
    rw [hcut, Data.cut, if_neg hg, if_neg (by omega)]
  refine ⟨fun p b hp hb => ?_, fun p b hp _ => ?_, fun b info hinfo hb => ?_⟩
  · obtain ⟨info, h1, h2, h3⟩ := hI.reads p b hp (by simp)
    exact ⟨info, by rw [hkept b hb (by rw [h1]; rfl), h1], h2, h3⟩
  · obtain ⟨info, -, -, h3⟩ := hI.reads p b hp (by simp)
    exact ⟨_, h3⟩
  · have hs : (it.data.blocks.lookup b).isSome := by
      by_contra hn
      rw [Option.not_isSome_iff_eq_none] at hn
      rw [hcut, Data.cut, hn] at hinfo
      split_ifs at hinfo; all_goals cases hinfo
    rw [hkept b hb hs] at hinfo
    exact hI.infos b info hinfo (by simp)

/-- `truncate_item` to a size that is not `0`: the item and the engine agree on the blocks past the
cut. -/
lemma Good.truncateItem_pos (h : OnePage cfg) (hG : c.Good cfg tbl) {owner : String} {it : Item}
    (hit : c.contents.lookup owner = some it) {newSize : ℕ} (h0 : newSize ≠ 0) :
    ∃ c' tbl', c.truncateItem cfg owner newSize = some (c', true) ∧
      Cut cfg c tbl owner it
        (Gone (toInt ((newSize : ℤ) / cfg.ioBlockSize)) ((newSize : ℤ) % cfg.ioBlockSize))
        (fun b => b = toInt ((newSize : ℤ) / cfg.ioBlockSize))
        ((newSize : ℤ) % cfg.ioBlockSize) c' tbl' := by
  have hI := hG.items owner it hit
  set blkId := toInt ((newSize : ℤ) / cfg.ioBlockSize) with hblk
  set index : ℤ := (newSize : ℤ) % cfg.ioBlockSize with hidx
  have hindex : 0 ≤ index := by
    rw [hidx]
    exact Int.emod_nonneg _ (by have := h.pos; omega)
  have hdata := (truncateBlocksAfter_spec cfg it.data blkId index).1
  have hmem := mem_truncateBlocksAfter cfg it.data blkId index
  set r := it.data.truncateBlocksAfter cfg blkId index with hr
  set it' : Item := ({ it with data := r.1 } : Item).setDataSyncFlag false with hit'
  have hdata' : ∀ b, it'.data.blocks.lookup b = it.data.cut blkId index b := hdata
  have hperm := cfg.unordered_perm r.2.toList
  -- the pages past the cut are among those handed to the engine
  have hlisted : ∀ p b, tbl p = some (owner, b) → blkId ≤ b →
      b ∈ (cfg.unordered r.2.toList).map Prod.fst := by
    intro p b hp hle
    obtain ⟨info, hinfo, -, -⟩ := hI.reads p b hp (by simp)
    exact List.mem_map.mpr ⟨(b, info.pageIndexNumber), (hmem b _).mpr ⟨hle, info, hinfo, rfl⟩, rfl⟩
  -- the blocks past the cut leave their pages
  obtain ⟨e', tbl', h1, h2, h3, h4, h5⟩ := truncateBlocks_ok h hindex (cfg.unordered r.2.toList)
    ((hperm.map Prod.fst).nodup_iff.mpr (Map.nodup_map_fst_toList _)) hG.rep hG.exact
    (itemOk_of_cut hI hdata' hmem)
    (fun p q b => hG.tbl_inj)
    (fun x hx => by
      obtain ⟨b, page⟩ := x
      obtain ⟨hle, info, hinfo, rfl⟩ := (hmem b page).mp hx
      obtain ⟨p, hp, htp⟩ := hI.infos b info hinfo (by simp)
      refine ⟨hle, p, hp, htp, fun hg => ?_, fun hg => ?_⟩
      · rw [hdata', Data.cut, if_pos hg]
      · have hb : b = blkId := by
          rw [Gone] at hg
          omega
        exact ⟨info.truncateReadableTo (index - 1), by
          rw [hdata', Data.cut, if_neg hg, if_pos hb, hinfo]; rfl, hp, rfl⟩)
  have hkept : ∀ {b}, ¬ Gone blkId index b → b ≠ blkId → b < blkId := by
    intro b hg hne
    rw [Gone] at hg
    omega
  refine ⟨{ (c.setItem owner it') with engine := e' }, tbl', ?_,
    hG.of_owner (by rw [hit]; rfl) h2 h3 h4 (fun p o' b ho => h5.other p b ho), rfl, fun o ho => ?_,
    ⟨it', ?_, rfl, fun b hg => ?_, fun b hg hb => ?_, fun b hg hb => ?_⟩, fun p ob => ?_,
    fun p b hp hg hb => ?_, fun p o b hp ho => ?_,
    fun o b ho => (h5.entry o b).trans (if_neg fun hx => ho ⟨hx.1, hx.2.2⟩)⟩
  · rw [Cache.truncateItem, hit]
    simp only [h0, if_false, Engine.truncateCachedBlocks, ← hblk, ← hidx, ← hr, h1,
      Option.bind_eq_bind, Option.bind_some, ← hit']
  · show (c.setItem owner it').contents.lookup o = _
    rw [lookup_setItem, if_neg ho]
  · show (c.setItem owner it').contents.lookup owner = _
    rw [lookup_setItem, if_pos rfl]
  · rw [hdata', Data.cut, if_pos hg]
  · rw [hdata', Data.cut, if_neg hg, if_pos hb]
  · rw [hdata', Data.cut, if_neg hg, if_neg hb]
  · rw [h5.table]
    refine and_congr_right fun hp => not_congr ⟨fun hx => ⟨hx.1, hx.2.2⟩, fun hx =>
      ⟨hx.1, ?_, hx.2⟩⟩
    obtain ⟨o, b⟩ := ob
    obtain ⟨rfl, hg⟩ := hx
    refine hlisted p b hp ?_
    rw [Gone] at hg
    dsimp only at hg
    omega
  · exact h5.edge p b hp (hlisted p b hp hb.symm.le) hg
  · refine h5.same p fun b' hb' hp' => ?_
    rw [hp, Option.some.injEq, Prod.mk.injEq] at hp'
    obtain ⟨rfl, rfl⟩ := hp'
    obtain ⟨⟨b', page⟩, hx, rfl⟩ := List.mem_map.mp hb'
    have := hkept (ho rfl).1 (ho rfl).2
    have := ((hmem _ page).mp hx).1
    dsimp only at *
    omega

/-- **`truncate_item`**. -/
theorem Good.truncateItem (h : OnePage cfg) (hG : c.Good cfg tbl) (owner : String) (newSize : ℕ) :
    ∃ c' r tbl', c.truncateItem cfg owner newSize = some (c', r) ∧ c'.Good cfg tbl' := by
  cases hit : c.contents.lookup owner with
  | none => exact ⟨c, false, tbl, by rw [Cache.truncateItem, hit], hG⟩
  | some it =>
      by_cases h0 : newSize = 0
      · obtain ⟨c', tbl', h1, h2⟩ := hG.truncateItem_zero h hit 0
        exact ⟨c', true, tbl', h0 ▸ h1, h2.good⟩
      · obtain ⟨c', tbl', h1, h2⟩ := hG.truncateItem_pos h hit h0
        exact ⟨c', true, tbl', h1, h2.good⟩

/-- **`sync_owner`**. -/
theorem Good.syncOwner (hG : c.Good cfg tbl) (d : Disk) (owner : String) (only : Bool) (path : Path)
    (io : SyncIo) :
    ∃ c' d' r, c.syncOwner cfg d owner only path io = some (c', d', r) ∧ c'.Good cfg tbl := by
  cases hit : c.contents.lookup owner with
  | none => exact ⟨c, d, -1, by rw [Cache.syncOwner, hit], hG⟩
  | some it =>
      obtain ⟨⟨e', d'⟩, hs⟩ := Option.isSome_iff_exists.mp
        (hG.rep.syncPages_isSome hG.exact d owner it.metadata.size path io)
      have hC := cleaned_of_syncPages hs
      have hG1 : (c.setItem owner (it.setDataSyncFlag true)).Good cfg tbl := hG.setItem hit rfl
      refine ⟨{ (c.setItem owner (it.setDataSyncFlag true)) with engine := e' }, d', 0, ?_,
        hC.rep hG.rep, hC.exact hG.exact, fun o it1 ho => ?_, fun p o b hp => ?_⟩
      · rw [Cache.syncOwner, hit]
        simp only [hs, Option.bind_eq_bind, Option.bind_some]
      · have ho' : (c.setItem owner (it.setDataSyncFlag true)).contents.lookup o = some it1 := ho
        exact (hG1.items o it1 ho').congr (fun _ _ => Iff.rfl) fun p b _ => hC.allocatedBlockIds p
      · exact hG1.known p o b hp

/-! ### Items that go -/

lemma Good.deleteItem (h : OnePage cfg) (hG : c.Good cfg tbl) (cid : String) :
    (c.deleteItem cfg cid).Good cfg (tbl.without cid) := by
  have hrm := hG.rep.removeCachedBlocks h.oneBlock cid
  refine ⟨hrm.rep, hrm.exact hG.exact, fun o it ho => ?_, fun p o b hp => ?_⟩
  · simp only [Cache.deleteItem, Map.lookup_erase'] at ho
    split_ifs at ho with hoc
    refine (hG.items o it ho).congr (fun p b => ?_) fun p b hp => ?_
    · rw [PageTable.without_eq_some]
      exact and_iff_right hoc
    · exact congrArg _ (hrm.searchIndex p o b hp hoc)
  · obtain ⟨hoc, hp⟩ := PageTable.without_eq_some.mp hp
    simp only [Cache.deleteItem, Map.lookup_erase', if_neg hoc]
    exact hG.known p o b hp

lemma Good.setMapping (hG : c.Good cfg tbl) (m : Map Path String) :
    Good cfg { c with fileInodeMapping := m } tbl := hG.of_eq rfl rfl

lemma Good.insertInodeMapping (hG : c.Good cfg tbl) (path : Path) (inode : String)
    (increase : Bool) : (c.insertInodeMapping path inode increase).Good cfg tbl := by
  have hG1 := hG.setMapping (c.fileInodeMapping.set path inode)
  rw [Cache.insertInodeMapping]
  dsimp only
  split_ifs
  · split
    · exact hG1
    · exact hG1.updateContentMetadata _ _ _
  · exact hG1

/-- **`rename_item`**. -/
theorem Good.renameItem (h : OnePage cfg) (hG : c.Good cfg tbl) (oldCid newCid : Path) :
    ∃ tbl', (c.renameItem cfg oldCid newCid).Good cfg tbl' := by
  rw [Cache.renameItem]
  split
  · exact ⟨tbl, hG⟩
  · rename_i inode _
    have hG1 := hG.setMapping (Map.set (c.fileInodeMapping.erase oldCid) newCid inode)
    dsimp only
    split
    · exact ⟨tbl, hG1⟩
    · rename_i it hit
      have hG2 : (Cache.setItem _ _ (dropLink it)).Good cfg tbl := hG1.setItem hit rfl
      split_ifs
      · exact ⟨tbl, hG2⟩
      · exact ⟨_, hG2.deleteItem h _⟩

/-- **`remove_cached_item`**. -/
theorem Good.removeCachedItem (h : OnePage cfg) (hG : c.Good cfg tbl) (owner : String) (path : Path)
    (isFromCache : Bool) : ∃ tbl',
      (c.removeCachedItem cfg owner path isFromCache).1.Good cfg tbl' := by
  rw [Cache.removeCachedItem]
  split
  · exact ⟨tbl, hG⟩
  · rename_i it hit
    have hG1 := hG.setMapping (c.fileInodeMapping.erase path)
    have hG2 : (Cache.setItem _ owner (dropLink it)).Good cfg tbl := hG1.setItem hit rfl
    dsimp only
    split_ifs
    · exact ⟨tbl, hG2⟩
    · exact ⟨_, hG2.deleteItem h _⟩

/-- **`clear_all_cache`**. -/
theorem Good.clearAllCache (h : OnePage cfg) (hG : c.Good cfg tbl) :
    ∃ tbl', (c.clearAllCache cfg).Good cfg tbl' := by
  have h1 : ∀ (l : List (Path × String)) (c : Cache) (tbl : PageTable), c.Good cfg tbl →
      ∃ tbl', (l.foldl (fun c it => (c.removeCachedItem cfg it.2 it.1 true).1) c).Good
        cfg tbl' := by
    intro l
    induction l with
    | nil => exact fun c tbl hG => ⟨tbl, hG⟩
    | cons x l ih =>
        intro c tbl hG
        obtain ⟨tbl1, hG1⟩ := hG.removeCachedItem h x.2 x.1 true
        exact ih _ tbl1 hG1
  have h2 : ∀ (l : List String) (c : Cache) (tbl : PageTable), c.Good cfg tbl →
      ∃ tbl', (l.foldl (fun c cid => c.deleteItem cfg cid) c).Good cfg tbl' := by
    intro l
    induction l with
    | nil => exact fun c tbl hG => ⟨tbl, hG⟩
    | cons x l ih => exact fun c tbl hG => ih _ _ (hG.deleteItem h x)
  obtain ⟨tbl1, hG1⟩ := h1 (cfg.unordered c.fileInodeMapping.toList) c tbl hG
  exact h2 _ _ tbl1 hG1

end Cache

end LazyFS
