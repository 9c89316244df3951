import LazyFS.Rep.Remove

/-!
The LRU list and its iterators.

* `Engine.LruOk`: every node of the list is the iterator of its page, and its page is a live one.
* `LruOk.applyLruOnRead`, `LruOk.applyLruOnWrite`: a visited page moves to the front.
* `LruOk.removeCachedBlocks`: released pages leave the list.
* `Housed`, `Rep.allocateBlock_housed`: where a block is stored; the pages in use stay the live
  ones, also when one is evicted.
-/

namespace LazyFS

namespace Engine

variable {cfg : Config} {e e' : Engine} {live live' : ℕ → Prop} {p : ℕ}

/-- The list and the iterators agree, and only live pages are listed. -/
structure LruOk (cfg : Config) (e : Engine) (live : ℕ → Prop) : Prop where
  iter : ∀ p n, e.pageOrderMapping.lookup p = some n ↔ (n, p) ∈ e.lruMainVector
  nodup : (e.lruMainVector.map Prod.fst).Nodup
  fresh : ∀ x ∈ e.lruMainVector, x.1 < e.nextNode
  live : ∀ x ∈ e.lruMainVector, live x.2
  off : cfg.applyLruEviction = false → e.lruMainVector = []

namespace LruOk

lemma congr (h : LruOk cfg e live) (heq : e'.lru = e.lru) : LruOk cfg e' live := by
  simp only [lru, Prod.mk.injEq] at heq
  obtain ⟨h1, h2, h3⟩ := heq
  exact ⟨h1 ▸ h2 ▸ h.iter, h1 ▸ h.nodup, h1 ▸ h3 ▸ h.fresh, h1 ▸ h.live, h1 ▸ h.off⟩

lemma mono (h : LruOk cfg e live) (hle : ∀ p, live p → live' p) : LruOk cfg e live' :=
  ⟨h.iter, h.nodup, h.fresh, fun x hx => hle _ (h.live x hx), h.off⟩

/-- A page is listed once, under its iterator. -/
lemma node_eq (h : LruOk cfg e live) {n : ℕ} (hp : (n, p) ∈ e.lruMainVector) {x : ℕ × ℕ}
    (hx : x ∈ e.lruMainVector) : x.1 = n ↔ x.2 = p := by
  constructor
  · intro hn
    exact congrArg Prod.snd (List.inj_on_of_nodup_map h.nodup hx hp hn)
  · rintro rfl
    have h1 := (h.iter x.2 n).mpr hp
    rw [(h.iter x.2 x.1).mpr hx, Option.some.injEq] at h1
    exact h1

/-- The list without the node of a page. -/
lemma mem_lruErase (h : LruOk cfg e live) (p : ℕ) (x : ℕ × ℕ) :
    x ∈ (e.lruErase p).lruMainVector ↔ x ∈ e.lruMainVector ∧ x.2 ≠ p := by
  rw [lruErase]
  cases hp : e.pageOrderMapping.lookup p with
  | none =>
      refine ⟨fun hx => ⟨hx, ?_⟩, And.left⟩
      rintro rfl
      rw [(h.iter x.2 x.1).mpr hx] at hp
      cases hp
  | some n =>
      dsimp only
      rw [List.mem_filter, decide_eq_true_eq]
      exact and_congr_right fun hx => not_congr (h.node_eq ((h.iter p n).mp hp) hx)

lemma sublist_lruErase (e : Engine) (p : ℕ) :
    ((e.lruErase p).lruMainVector).Sublist e.lruMainVector := by
  rw [lruErase]
  split
  · exact List.Sublist.refl _
  · exact List.filter_sublist

lemma lruErase_fields (e : Engine) (p : ℕ) :
    (e.lruErase p).pageOrderMapping = e.pageOrderMapping ∧
    (e.lruErase p).nextNode = e.nextNode := by
  rw [lruErase]
  split
  · exact ⟨rfl, rfl⟩
  · exact ⟨rfl, rfl⟩

/-- A page that is no longer live leaves the list. -/
lemma forget (h : LruOk cfg e live) (p : ℕ) :
    LruOk cfg { (e.lruErase p) with pageOrderMapping := (e.lruErase p).pageOrderMapping.erase p }
      fun q => live q ∧ q ≠ p where
  iter := fun q n => by
    rw [Map.lookup_erase', h.mem_lruErase, (lruErase_fields e p).1]
    split_ifs with hq
    · simp [hq]
    · rw [h.iter, and_iff_left hq]
  nodup := h.nodup.sublist ((sublist_lruErase e p).map _)
  fresh := fun x hx => by
    rw [show (e.lruErase p).nextNode = e.nextNode from (lruErase_fields e p).2]
    exact h.fresh x ((sublist_lruErase e p).subset hx)
  live := fun x hx => by
    obtain ⟨h1, h2⟩ := (h.mem_lruErase p x).mp hx
    exact ⟨h.live x h1, h2⟩
  off := fun hl => by
    have hnil := sublist_lruErase e p
    rw [h.off hl, List.sublist_nil] at hnil
    exact hnil

/-- A page enters at the front of a list without it; its iterator may be an old one. -/
lemma pushed (hiter : ∀ q n, q ≠ p →
      (e.pageOrderMapping.lookup q = some n ↔ (n, q) ∈ e.lruMainVector))
    (hnot : ∀ x ∈ e.lruMainVector, x.2 ≠ p) (hnodup : (e.lruMainVector.map Prod.fst).Nodup)
    (hfresh : ∀ x ∈ e.lruMainVector, x.1 < e.nextNode) (hlive : ∀ x ∈ e.lruMainVector, live x.2)
    (hl : cfg.applyLruEviction = true) (hp : live p) : LruOk cfg (e.lruPushFront p) live where
  iter := fun q n => by
    show (e.pageOrderMapping.set p e.nextNode).lookup q = some n ↔
      (n, q) ∈ (e.nextNode, p) :: e.lruMainVector
    rw [Map.lookup_set, List.mem_cons, Prod.mk.injEq]
    split_ifs with hq
    · subst hq
      rw [Option.some.injEq, and_iff_left rfl, or_iff_left fun hx => hnot _ hx rfl, eq_comm]
    · rw [hiter q n hq, or_iff_right fun hx => hq hx.2]
  nodup := List.nodup_cons.mpr ⟨fun hx => by
    obtain ⟨x, hx, hn⟩ := List.mem_map.mp hx
    exact absurd (hfresh x hx) (by rw [hn]; exact lt_irrefl _), hnodup⟩
  fresh := fun x hx => by
    show x.1 < e.nextNode + 1
    rcases List.mem_cons.mp hx with rfl | hx
    · exact Nat.lt_succ_self _
    · exact Nat.lt_succ_of_lt (hfresh x hx)
  live := fun x hx => by
    rcases List.mem_cons.mp hx with rfl | hx
    · exact hp
    · exact hlive x hx
  off := fun hl' => by rw [hl] at hl'; cases hl'

/-- `_apply_lru_after_page_visitation_on_READ`. -/
lemma applyLruOnRead (h : LruOk cfg e live) (hl : cfg.applyLruEviction = true) (hp : live p) :
    LruOk cfg (e.applyLruOnRead p) live := by
  obtain ⟨h1, h2⟩ := lruErase_fields e p
  refine pushed (fun q n hq => ?_) (fun x hx => ((h.mem_lruErase p x).mp hx).2)
    (h.nodup.sublist ((sublist_lruErase e p).map _)) (fun x hx => ?_)
    (fun x hx => h.live x ((sublist_lruErase e p).subset hx)) hl hp
  · rw [h1, h.iter, h.mem_lruErase, and_iff_left hq]
  · rw [h2]
    exact h.fresh x ((sublist_lruErase e p).subset hx)

/-- `_apply_lru_after_page_visitation_on_WRITE`; the list never holds more pages than there are, and
if it did its back would leave it. -/
lemma applyLruOnWrite (h : LruOk cfg e live) (hl : cfg.applyLruEviction = true) (hp : live p) :
    LruOk cfg (e.applyLruOnWrite cfg p) live := by
  rw [Engine.applyLruOnWrite]
  cases hn : e.pageOrderMapping.lookup p with
  | some n => exact h.applyLruOnRead hl hp
  | none =>
      -- the page is new in the list
      have hnot : ∀ x ∈ e.lruMainVector, x.2 ≠ p := by
        rintro x hx rfl
        rw [(h.iter x.2 x.1).mpr hx] at hn
        cases hn
      have h1 : LruOk cfg (e.lruPushFront p) live :=
        pushed (fun q n _ => h.iter q n) hnot h.nodup h.fresh h.live hl hp
      dsimp only
      split_ifs
      · cases hb : (e.lruPushFront p).lruMainVector.getLast? with
        | none => exact h1
        | some x =>
            -- the list is too long, and loses its last page
            obtain ⟨n, q⟩ := x
            have hsplit := List.dropLast_append_getLast? _ hb
            set l := (e.lruPushFront p).lruMainVector.dropLast with hdrop
            have hmem : ∀ x, x ∈ (e.lruPushFront p).lruMainVector ↔ x ∈ l ∨ x = (n, q) := by
              intro x
              rw [← hsplit, List.mem_append, List.mem_singleton]
            have hnd : ((l ++ [(n, q)]).map Prod.fst).Nodup := hsplit ▸ h1.nodup
            have hlast : ∀ x ∈ l, x.2 ≠ q := by
              intro x hx heq
              rw [List.map_append, List.nodup_append] at hnd
              refine hnd.2.2 x.1 (List.mem_map.mpr ⟨x, hx, rfl⟩) n (by simp) ?_
              exact (h1.node_eq ((hmem _).mpr (.inr rfl)) ((hmem x).mpr (.inl hx))).mpr heq
            refine ⟨fun r m => ?_, (List.nodup_append.mp (List.map_append ▸ hnd)).1,
              fun x hx => h1.fresh x ((hmem x).mpr (.inl hx)),
              fun x hx => h1.live x ((hmem x).mpr (.inl hx)), fun hl' => by
                rw [hl] at hl'; cases hl'⟩
            show ((e.lruPushFront p).pageOrderMapping.erase q).lookup r = some m ↔ (m, r) ∈ l
            rw [Map.lookup_erase']
            split_ifs with hr
            · subst hr
              exact ⟨fun hx => (by cases hx), fun hx => absurd rfl (hlast _ hx)⟩
            · rw [h1.iter, hmem, or_iff_left fun hx => hr (Prod.mk.injEq .. ▸ hx).2]
      · exact h1

/-- The list never holds more pages than there are, so that nothing leaves it at its back. -/
lemma applyLruOnWrite_eq (h : LruOk cfg e live) (hlt : ∀ q, live q → q < cfg.cacheNrPages)
    (hp : p < cfg.cacheNrPages) : e.applyLruOnWrite cfg p = e.applyLruOnRead p := by
  rw [Engine.applyLruOnWrite, Engine.applyLruOnRead, lruErase]
  cases hn : e.pageOrderMapping.lookup p with
  | some n => rfl
  | none =>
      dsimp only
      refine if_neg (not_lt.mpr ?_)
      -- the pages with an iterator are numbers below the number of pages
      have hsub : (e.pageOrderMapping.set p e.nextNode).keys ⊆ List.range cfg.cacheNrPages := by
        intro q hq
        rw [← AList.mem_keys, ← AList.lookup_isSome, Map.lookup_set] at hq
        rw [List.mem_range]
        split_ifs at hq with hqp
        · rw [hqp]
          exact hp
        · obtain ⟨n, hn⟩ := Option.isSome_iff_exists.mp hq
          exact hlt q (h.live _ ((h.iter q n).mp hn))
      have hlen := (List.subperm_of_subset (AList.keys_nodup _) hsub).length_le
      rw [List.length_range, AList.keys, List.keys, List.length_map] at hlen
      exact hlen

/-- What is left of the list when a page is released. -/
lemma mem_releasePage (h : LruOk cfg e live) (hl : cfg.applyLruEviction = true)
    (p : ℕ) (x : ℕ × ℕ) :
    x ∈ (e.releasePage cfg p).lruMainVector ↔ x ∈ e.lruMainVector ∧ x.2 ≠ p := by
  have h1 : LruOk cfg { e with freePages := e.freePages ++ [p] } live := h.congr rfl
  rw [Engine.releasePage]
  simp only [hl, if_true]
  exact h1.mem_lruErase p x

lemma sublist_releasePage (e : Engine) (p : ℕ) :
    (e.releasePage cfg p).lruMainVector.Sublist e.lruMainVector := by
  rw [Engine.releasePage]
  dsimp only
  split_ifs
  · exact sublist_lruErase { e with freePages := e.freePages ++ [p] } p
  · exact .refl _

/-- A page that is released leaves the list. -/
lemma releasePage (h : LruOk cfg e live) (p : ℕ) :
    LruOk cfg (e.releasePage cfg p) fun q => live q ∧ q ≠ p := by
  rw [Engine.releasePage]
  dsimp only
  split_ifs with hl
  · have h1 : LruOk cfg { e with freePages := e.freePages ++ [p] } live := h.congr rfl
    exact (h1.forget p).congr rfl
  · rw [Bool.not_eq_true] at hl
    refine ⟨h.iter, h.nodup, h.fresh, fun x hx => ?_, h.off⟩
    have hx' : x ∈ e.lruMainVector := hx
    rw [h.off hl] at hx'
    cases hx'

/-- `remove_cached_blocks`: the pages of the owner leave the list. -/
lemma removeCachedBlocks (h : LruOk cfg e live) (o : String)
    (hlive : ∀ s, e.ownerPagesMapping.lookup o = some s → ∀ p, live p → p ∉ s → live' p)
    (hnone : e.ownerPagesMapping.lookup o = none → ∀ p, live p → live' p) :
    LruOk cfg (e.removeCachedBlocks cfg o) live' := by
  have hfold : ∀ (l : List ℕ) {e : Engine} {live : ℕ → Prop}, LruOk cfg e live →
      LruOk cfg (l.foldl (Engine.releasePage cfg) e) fun q => live q ∧ q ∉ l := by
    intro l
    induction l with
    | nil => exact fun h => h.mono fun q hq => ⟨hq, by simp⟩
    | cons p l ih =>
        intro e live h
        refine (ih (h.releasePage p)).mono fun q hq => ⟨hq.1.1, ?_⟩
        rw [List.mem_cons, not_or]
        exact ⟨hq.1.2, hq.2⟩
  rw [Engine.removeCachedBlocks]
  cases hs : e.ownerPagesMapping.lookup o with
  | none =>
      dsimp only
      exact (h.mono (hnone hs)).congr rfl
  | some s =>
      dsimp only
      have h1 :
          LruOk cfg { e with ownerFreePagesMapping := e.ownerFreePagesMapping.erase o } live :=
        h.congr rfl
      refine ((hfold (cfg.unordered s) h1).mono fun q hq => hlive s hs q hq.1 fun hmem =>
        hq.2 ?_).congr rfl
      exact (cfg.unordered_perm s).mem_iff.mpr hmem

/-- What is left of the list when the pages of an owner are released. -/
lemma lru_removeCachedBlocks (h : LruOk cfg e live) (hl : cfg.applyLruEviction = true)
    (o : String) : (e.removeCachedBlocks cfg o).lruMainVector.Sublist e.lruMainVector ∧
      ∀ x ∈ e.lruMainVector, (∀ s, e.ownerPagesMapping.lookup o = some s → x.2 ∉ s) →
        x ∈ (e.removeCachedBlocks cfg o).lruMainVector := by
  have hfold : ∀ (l : List ℕ) {e : Engine} {live : ℕ → Prop}, LruOk cfg e live →
      (l.foldl (Engine.releasePage cfg) e).lruMainVector.Sublist e.lruMainVector ∧
        ∀ x ∈ e.lruMainVector, x.2 ∉ l →
        x ∈ (l.foldl (Engine.releasePage cfg) e).lruMainVector := by
    intro l
    induction l with
    | nil => exact fun _ => ⟨.refl _, fun _ hx _ => hx⟩
    | cons p l ih =>
        intro e live h
        obtain ⟨h1, h2⟩ := ih (h.releasePage p)
        refine ⟨h1.trans (sublist_releasePage e p), fun x hx hxl => ?_⟩
        rw [List.mem_cons, not_or] at hxl
        exact h2 x ((h.mem_releasePage hl p x).mpr ⟨hx, hxl.1⟩) hxl.2
  have h1 : LruOk cfg { e with ownerFreePagesMapping := e.ownerFreePagesMapping.erase o } live :=
    h.congr rfl
  rw [Engine.removeCachedBlocks]
  cases hs : e.ownerPagesMapping.lookup o with
  | none => exact ⟨.refl _, fun _ hx _ => hx⟩
  | some s =>
      obtain ⟨h2, h3⟩ := hfold (cfg.unordered s) h1
      exact ⟨h2, fun x hx hnot => h3 x hx fun hmem =>
        hnot s rfl ((cfg.unordered_perm s).mem_iff.mp hmem)⟩

end LruOk

/-! ### Storing a block -/

/-- What one turn of the loop of `allocate_blocks` does to the page table and the LRU list: the
block is in its page already, goes to a free page or to the page at the back of the list, or finds
none. -/
inductive Housed (cfg : Config) (e : Engine) (tbl : PageTable) (cid : String) (blk : ℤ)
    (b : BlockData) :
    Engine → PageTable → Option ℕ → Prop where
  | update {e' : Engine} (p : ℕ) (hb : b.pageId = some p) (hp : tbl p = some (cid, blk))
      (hlru : e'.lru = e.lru) : Housed cfg e tbl cid blk b e' tbl (some p)
  | fresh {e' : Engine} (p : ℕ) (hb : ∀ q, b.pageId = some q → tbl q ≠ some (cid, blk))
      (hlt : p < cfg.cacheNrPages) (hp : tbl p = none)
      (hlru : e'.lru = if cfg.applyLruEviction then (e.applyLruOnWrite cfg p).lru else e.lru) :
      Housed cfg e tbl cid blk b e' (Function.update tbl p (some (cid, blk))) (some p)
  | evict {e' : Engine} (n p : ℕ) (hb : ∀ q, b.pageId = some q → tbl q ≠ some (cid, blk))
      (hl : cfg.applyLruEviction = true)
      (hlast : e.lruMainVector.getLast? = some (n, p)) (hused : (tbl p).isSome)
      (hlru : e'.lru = (e.applyLruOnWrite cfg p).lru) :
      Housed cfg e tbl cid blk b e' (Function.update tbl p (some (cid, blk))) (some p)
  | full (hl : cfg.applyLruEviction = false) : Housed cfg e tbl cid blk b e tbl none

section

variable {tbl tbl' : PageTable} {d d' : Disk} {cid : String} {blk : ℤ} {b : BlockData}
  {op : AllocateOperationType} {page : Option ℕ}

/-- **One turn** of the loop of `allocate_blocks`, with an eviction or without. -/
theorem Rep.allocateBlock_housed (h : OneBlock cfg) (hR : Rep cfg e tbl none) (hcid : cid ≠ "none")
    (hlive : ∀ x ∈ e.lruMainVector, (tbl x.2).isSome)
    (ha : e.allocateBlock cfg d cid blk b op = some (e', d', page)) :
    ∃ tbl', Rep cfg e' tbl' none ∧ Housed cfg e tbl cid blk b e' tbl' page := by
  by_cases hb : ∃ p, b.pageId = some p ∧ tbl p = some (cid, blk)
  · obtain ⟨p, hb, hp⟩ := hb
    rw [hR.allocateBlock_of_cached hb hp] at ha
    obtain ⟨e1, he1, heq⟩ := Option.map_eq_some_iff.mp ha
    obtain ⟨rfl, rfl, rfl⟩ := by simpa using heq
    cases he : e.entry cid blk with
    | none => rw [updateBlock_eq_none he] at he1; cases he1
    | some ent =>
        obtain ⟨e2, he2, hU⟩ := hR.updateBlock (b := b) hp he
        rw [he1, Option.some.injEq] at he2
        subst he2
        exact ⟨tbl, hU.rep, .update p hb hp hU.lru⟩
  · have hb' : ∀ q, b.pageId = some q → tbl q ≠ some (cid, blk) := fun q h1 h2 => hb ⟨q, h1, h2⟩
    rw [hR.allocateBlock_of_not_cached hb'] at ha
    -- a page is in hand, and the block is stored in it
    have hstore : ∀ {e1 : Engine} {d1 : Disk} {t : PageTable} {p : ℕ},
        e.getNextFreePage cfg d cid = some (e1, d1, some p) → Rep cfg e1 t (some p) →
        BarePage cfg (e1.searchIndex p) → e1.lru = e.lru → page = some p ∧
        Rep cfg e' (Function.update t p (some (cid, blk))) none ∧
        e'.lru = if cfg.applyLruEviction then (e.applyLruOnWrite cfg p).lru else e.lru := by
      intro e1 d1 t p hnext hR1 hbare hlru
      rw [allocateFree, hnext] at ha
      simp only [Option.bind_eq_bind, Option.bind_some, if_pos (hR1.inHand p rfl).1] at ha
      obtain ⟨e2, he2, heq⟩ := Option.bind_eq_some_iff.mp ha
      obtain ⟨rfl, rfl, rfl⟩ := by simpa using heq
      obtain ⟨e3, he3, hR3, hlru3⟩ := hR1.storeBlock_rep hbare hcid blk b op
      rw [he2, Option.some.injEq] at he3
      subst he3
      refine ⟨rfl, hR3, ?_⟩
      rw [hlru3, hlru, lru_applyLruOnWrite_congr hlru]
    -- a free page, or the oldest one, or none
    cases hf : e.freePages.getLast? with
    | some p =>
        obtain ⟨hnext, hR1, hfree⟩ := hR.getNextFreePage_free (d := d) (o := cid) hf
        obtain ⟨rfl, hR2, hlru⟩ := hstore hnext hR1 hfree.toBarePage rfl
        obtain ⟨hlt, hp, -⟩ := (hR.mem_free p).mp (List.mem_of_getLast? hf)
        exact ⟨_, hR2, .fresh p hb' hlt hp hlru⟩
    | none =>
        have hnil : e.freePages = [] := List.getLast?_eq_none_iff.mp hf
        cases hl : cfg.applyLruEviction with
        | false =>
            rw [allocateFree, hR.getNextFreePage_full hnil hl] at ha
            obtain ⟨rfl, rfl, rfl⟩ := by simpa using ha
            exact ⟨tbl, hR, .full hl⟩
        | true =>
            cases hv : e.lruMainVector.getLast? with
            | none =>
                rw [allocateFree, hR.getNextFreePage_stuck hnil hl hv] at ha
                cases ha
            | some v =>
                obtain ⟨n, p⟩ := v
                have hused := hlive (n, p) (List.mem_of_getLast? hv)
                obtain ⟨⟨o, b'⟩, hp⟩ := Option.isSome_iff_exists.mp hused
                obtain ⟨rfl, hR2, hlru⟩ := hstore (hR.getNextFreePage_evict hnil hl hv)
                  (hR.evictPage h hp d) (searchIndex_evictPage h e d p).1 rfl
                rw [Function.update_idem] at hR2
                rw [hl, if_pos rfl] at hlru
                exact ⟨_, hR2, .evict n p hb' hl hv hused hlru⟩

/-- The pages in use are the live ones. -/
lemma Housed.lruOk (hP : Housed cfg e tbl cid blk b e' tbl' page)
    (hL : LruOk cfg e fun p => (tbl p).isSome) :
    LruOk cfg e' fun p => (tbl' p).isSome := by
  have hup : ∀ p q : ℕ, (tbl q).isSome → (Function.update tbl p (some (cid, blk)) q).isSome := by
    intro p q hq
    by_cases hqp : q = p
    · rw [hqp, Function.update_self]
      rfl
    · rwa [Function.update_of_ne hqp]
  have hself : ∀ p : ℕ, (Function.update tbl p (some (cid, blk)) p).isSome := by
    intro p
    rw [Function.update_self]
    rfl
  cases hP with
  | update p _ hp hlru => exact hL.congr hlru
  | fresh p _ _ hp hlru =>
      split_ifs at hlru with hl
      · exact ((hL.mono (hup p)).applyLruOnWrite hl (hself p)).congr hlru
      · exact (hL.mono (hup p)).congr hlru
  | evict n p _ hl _ _ hlru => exact ((hL.mono (hup p)).applyLruOnWrite hl (hself p)).congr hlru
  | full => exact hL

/-- One turn of the loop of `allocate_blocks`: the pages in use stay the live ones. -/
theorem Rep.allocateBlock_lruOk (h : OneBlock cfg) (hR : Rep cfg e tbl none) (hcid : cid ≠ "none")
    (hL : LruOk cfg e fun p => (tbl p).isSome)
    (ha : e.allocateBlock cfg d cid blk b op = some (e', d', page)) :
    ∃ tbl', Rep cfg e' tbl' none ∧ LruOk cfg e' fun p => (tbl' p).isSome := by
  obtain ⟨tbl', hR', hP⟩ := hR.allocateBlock_housed h hcid hL.live ha
  exact ⟨tbl', hR', hP.lruOk hL⟩

end

end Engine

end LazyFS
