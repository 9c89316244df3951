import LazyFS.Model.Engine
import LazyFS.Rep.Pages

/-!
The page table of the engine: which page holds which block of which owner.

* `PageTable`, and `Engine.Rep cfg e tbl hand`: the engine `e` stores the blocks as `tbl` says;
  the page `hand`, if any, has been taken from the free list or from its last owner and is not
  yet in use.
* `Engine.entry`: the entry of a block in `owner_ordered_pages_mapping`; `Engine.Exact`: the
  entries are those of the table.
* `Rep.getNextFreePage_free`, `Rep.evictPage`, `Rep.storeBlock`: how a page changes hands;
  `Exact.storeBlock` says when the entries stay exact.
-/

namespace LazyFS

/-- The owner and the block of every page that is in use. -/
abbrev PageTable := ℕ → Option (String × ℤ)

namespace Engine

variable {cfg : Config} {e e' : Engine} {tbl : PageTable} {hand : Option ℕ}

/-- The engine stores the blocks as the table says, except for a page in hand. -/
structure Rep (cfg : Config) (e : Engine) (tbl : PageTable) (hand : Option ℕ) : Prop where
  used : ∀ p o b, tbl p = some (o, b) →
    p < cfg.cacheNrPages ∧ o ≠ "none" ∧ UsedPage cfg o b (e.searchIndex p)
  free : ∀ p, p < cfg.cacheNrPages → tbl p = none → hand ≠ some p → FreePage cfg (e.searchIndex p)
  inHand : ∀ p, hand = some p → p < cfg.cacheNrPages ∧ tbl p = none
  mem_free : ∀ p, p ∈ e.freePages ↔ p < cfg.cacheNrPages ∧ tbl p = none ∧ hand ≠ some p
  nodup : e.freePages.Nodup
  owned : ∀ o s, e.ownerPagesMapping.lookup o = some s →
    s.Nodup ∧ ∀ p, p ∈ s ↔ ∃ b, tbl p = some (o, b)
  known : ∀ p o b, tbl p = some (o, b) → (e.ownerPagesMapping.lookup o).isSome
  no_none : e.ownerPagesMapping.lookup "none" = none
  ordered_isSome : ∀ o,
    (e.ownerOrderedPagesMapping.lookup o).isSome = (e.ownerPagesMapping.lookup o).isSome
  rooms : ∀ o, e.ownerFreePagesMapping.lookup o
    = if (e.ownerPagesMapping.lookup o).isSome then some [] else none

/-- The entry of a block in the ordered map of its owner. -/
def entry (e : Engine) (o : String) (b : ℤ) : Option OrderedEntry :=
  (e.ownerOrderedPagesMapping.lookup o).bind fun m => m.lookup b

/-- The ordered entries are those of the page table. -/
structure Exact (cfg : Config) (e : Engine) (tbl : PageTable) : Prop where
  of_entry : ∀ o b ent, e.entry o b = some ent →
    tbl ent.pageId = some (o, b) ∧ ent.offsets = slot cfg
  entry_of : ∀ p o b, tbl p = some (o, b) → ∃ ent, e.entry o b = some ent ∧ ent.pageId = p

/-- The LRU list with its iterators. -/
def lru (e : Engine) : List (ℕ × ℕ) × Map ℕ ℕ × ℕ :=
  (e.lruMainVector, e.pageOrderMapping, e.nextNode)

lemma entry_congr (h : e'.ownerOrderedPagesMapping = e.ownerOrderedPagesMapping) (o : String)
    (b : ℤ) : e'.entry o b = e.entry o b := by rw [entry, entry, h]

lemma entry_set (e : Engine) (o o' : String) (m : Map ℤ OrderedEntry) (b : ℤ) :
    ((e.ownerOrderedPagesMapping.set o m).lookup o').bind (fun m => m.lookup b)
      = if o' = o then m.lookup b else e.entry o' b := by
  rw [Map.lookup_set]
  split_ifs <;> rfl

@[simp] lemma searchIndex_setPage_self (e : Engine) (p : ℕ) (pg : Page) :
    (e.setPage p pg).searchIndex p = pg := by
  simp [setPage]

lemma searchIndex_setPage_ne (e : Engine) {p q : ℕ} (pg : Page) (h : q ≠ p) :
    (e.setPage p pg).searchIndex q = e.searchIndex q := by
  simp [setPage, h]

section

variable (e : Engine) (p : ℕ) (pg : Page)

@[simp] lemma freePages_setPage : (e.setPage p pg).freePages = e.freePages := rfl

@[simp] lemma ownerOrderedPagesMapping_setPage :
    (e.setPage p pg).ownerOrderedPagesMapping = e.ownerOrderedPagesMapping := rfl

@[simp] lemma entry_setPage (o : String) (b : ℤ) : (e.setPage p pg).entry o b = e.entry o b := rfl

end

/-- A fresh engine stores nothing. -/
lemma rep_new (h : OneBlock cfg) : Rep cfg (Engine.new cfg) (fun _ => none) none where
  used := fun p o b hp => by cases hp
  free := fun p _ _ _ => h.freePage_new
  inHand := fun p hp => by cases hp
  mem_free := fun p => by simp [Engine.new]
  nodup := List.nodup_range
  owned := fun o s hs => by
    simp only [Engine.new, AList.lookup_empty] at hs
    cases hs
  known := fun p o b hp => by cases hp
  no_none := AList.lookup_empty _
  ordered_isSome := fun o => rfl
  rooms := fun o => rfl

namespace Rep

/-! ### Frames -/

/-- The representation reads only five of the fields, the ordered map by its owners. -/
lemma congr (hR : Rep cfg e tbl hand) (hs : e'.searchIndex = e.searchIndex)
    (hf : e'.freePages = e.freePages) (ho : e'.ownerPagesMapping = e.ownerPagesMapping)
    (hm : ∀ o, (e'.ownerOrderedPagesMapping.lookup o).isSome
      = (e.ownerOrderedPagesMapping.lookup o).isSome)
    (hr : e'.ownerFreePagesMapping = e.ownerFreePagesMapping) : Rep cfg e' tbl hand where
  used := hs ▸ hR.used
  free := hs ▸ hR.free
  inHand := hR.inHand
  mem_free := hf ▸ hR.mem_free
  nodup := hf ▸ hR.nodup
  owned := ho ▸ hR.owned
  known := ho ▸ hR.known
  no_none := ho ▸ hR.no_none
  ordered_isSome := fun o => by rw [hm, hR.ordered_isSome, ho]
  rooms := fun o => by rw [hr, hR.rooms, ho]

/-- A page in use is replaced by one of the same shape. -/
lemma setPage (hR : Rep cfg e tbl hand) {p : ℕ} {o : String} {b : ℤ} {pg : Page}
    (hp : tbl p = some (o, b)) (hu : UsedPage cfg o b pg) : Rep cfg (e.setPage p pg) tbl hand where
  used := fun q o' b' hq => by
    obtain ⟨h1, h2, h3⟩ := hR.used q o' b' hq
    refine ⟨h1, h2, ?_⟩
    by_cases hqp : q = p
    · subst hqp
      rw [hp, Option.some.injEq, Prod.mk.injEq] at hq
      obtain ⟨rfl, rfl⟩ := hq
      rwa [searchIndex_setPage_self]
    · rwa [searchIndex_setPage_ne e pg hqp]
  free := fun q hq ht hh => by
    have hqp : q ≠ p := fun h => by rw [h, hp] at ht; cases ht
    rw [searchIndex_setPage_ne e pg hqp]
    exact hR.free q hq ht hh
  inHand := hR.inHand
  mem_free := hR.mem_free
  nodup := hR.nodup
  owned := hR.owned
  known := hR.known
  no_none := hR.no_none
  ordered_isSome := hR.ordered_isSome
  rooms := hR.rooms

/-- The page in hand may be anything. -/
lemma setHand {p : ℕ} (hR : Rep cfg e tbl (some p)) (pg : Page) :
    Rep cfg (e.setPage p pg) tbl (some p) where
  used := fun q o b hq => by
    have hqp : q ≠ p := fun h => by rw [h, (hR.inHand p rfl).2] at hq; cases hq
    rw [searchIndex_setPage_ne e pg hqp]
    exact hR.used q o b hq
  free := fun q hq ht hh => by
    have hqp : q ≠ p := fun h => hh (by rw [h])
    rw [searchIndex_setPage_ne e pg hqp]
    exact hR.free q hq ht hh
  inHand := hR.inHand
  mem_free := hR.mem_free
  nodup := hR.nodup
  owned := hR.owned
  known := hR.known
  no_none := hR.no_none
  ordered_isSome := hR.ordered_isSome
  rooms := hR.rooms

/-! ### Lookups -/

lemma lt (hR : Rep cfg e tbl hand) {p : ℕ} {o : String} {b : ℤ} (hp : tbl p = some (o, b)) :
    p < cfg.cacheNrPages := (hR.used p o b hp).1

lemma usedPage (hR : Rep cfg e tbl hand) {p : ℕ} {o : String} {b : ℤ} (hp : tbl p = some (o, b)) :
    UsedPage cfg o b (e.searchIndex p) := (hR.used p o b hp).2.2

lemma getPagePtr (hR : Rep cfg e tbl hand) {p : ℕ} {o : String} {b : ℤ}
    (hp : tbl p = some (o, b)) : e.getPagePtr cfg p = some (e.searchIndex p) := by
  rw [Engine.getPagePtr, if_pos (hR.lt hp)]

/-- A page without a block contains none. -/
lemma containsBlock_eq_false (hR : Rep cfg e tbl none) {p : ℕ} (hlt : p < cfg.cacheNrPages)
    (hp : tbl p = none) (b : ℤ) : (e.searchIndex p).containsBlock b = false :=
  (hR.free p hlt hp (by simp)).toBarePage.containsBlock b

/-- The check of `is_block_cached` is the one of the table. -/
lemma isBlockCached_iff (hR : Rep cfg e tbl none) {o : String} {b : ℤ} {page : Option ℕ} :
    e.isBlockCached cfg o page b = true ↔ ∃ p, page = some p ∧ tbl p = some (o, b) := by
  cases page with
  | none => simp [Engine.isBlockCached]
  | some p =>
      rw [Engine.isBlockCached, Option.bind_some, Engine.getPagePtr]
      by_cases hlt : p < cfg.cacheNrPages
      · rw [if_pos hlt]
        cases hp : tbl p with
        | none => simp [hR.containsBlock_eq_false hlt hp b, hp]
        | some ob =>
            obtain ⟨o', b'⟩ := ob
            have hu := hR.usedPage hp
            dsimp only
            rw [Page.isPageOwner, hu.owner, hu.containsBlock, Bool.and_eq_true, decide_eq_true_eq,
              decide_eq_true_eq]
            constructor
            · rintro ⟨rfl, rfl⟩
              exact ⟨p, rfl, hp⟩
            · rintro ⟨q, hq, hb⟩
              rw [Option.some.injEq] at hq
              rw [← hq, hp, Option.some.injEq, Prod.mk.injEq] at hb
              exact ⟨hb.1, hb.2.symm⟩
      · rw [if_neg hlt]
        have hn : tbl p ≠ some (o, b) := fun h => hlt (hR.lt h)
        simp [hn]

lemma isBlockCached_eq_false (hR : Rep cfg e tbl none) {o : String} {b : ℤ} {page : Option ℕ}
    (h : ∀ p, page = some p → tbl p ≠ some (o, b)) : e.isBlockCached cfg o page b = false := by
  rw [← Bool.not_eq_true, hR.isBlockCached_iff]
  rintro ⟨p, hp, hb⟩
  exact h p hp hb

/-- A table with an owner known to the engine. -/
lemma lookup_owner (hR : Rep cfg e tbl hand) {p : ℕ} {o : String} {b : ℤ}
    (hp : tbl p = some (o, b)) : ∃ s m, e.ownerPagesMapping.lookup o = some s ∧
      e.ownerOrderedPagesMapping.lookup o = some m ∧ p ∈ s := by
  have hs := hR.known p o b hp
  obtain ⟨s, hs'⟩ := Option.isSome_iff_exists.mp hs
  obtain ⟨m, hm⟩ := Option.isSome_iff_exists.mp ((hR.ordered_isSome o).trans hs)
  exact ⟨s, m, hs', hm, ((hR.owned o s hs').2 p).mpr ⟨b, hp⟩⟩

/-- No owner has a list of pages with room in it. -/
lemma pageWithRoom (hR : Rep cfg e tbl hand) (o : String) :
    e.pageWithRoom o = some none := by
  rw [Engine.pageWithRoom, hR.rooms o]
  split_ifs <;> rfl

end Rep

/-! ### The next free page -/

section

variable {d : Disk} {o : String}

/-- A page is left: the last one of the free list. -/
lemma Rep.getNextFreePage_free (hR : Rep cfg e tbl none) {p : ℕ}
    (hp : e.freePages.getLast? = some p) :
    e.getNextFreePage cfg d o
        = some ({ e with freePages := e.freePages.dropLast }, d, some p) ∧
      Rep cfg { e with freePages := e.freePages.dropLast } tbl (some p) ∧
      FreePage cfg (e.searchIndex p) := by
  have hsplit : e.freePages = e.freePages.dropLast ++ [p] :=
    (List.dropLast_append_getLast? p hp).symm
  have hmem : p ∈ e.freePages := List.mem_of_getLast? hp
  have hnd : (e.freePages.dropLast ++ [p]).Nodup := hsplit ▸ hR.nodup
  have hfresh : p ∉ e.freePages.dropLast := by
    intro h
    exact (List.nodup_append.mp hnd).2.2 p h p (List.mem_singleton_self p) rfl
  obtain ⟨hlt, ht, -⟩ := (hR.mem_free p).mp hmem
  have hfree : FreePage cfg (e.searchIndex p) := hR.free p hlt ht (by simp)
  refine ⟨?_, ?_, hfree⟩
  · simp [Engine.getNextFreePage, hR.pageWithRoom o, hp]
  · refine ⟨hR.used, fun q hq hn _ => hR.free q hq hn (by simp), ?_, fun q => ?_,
      (List.nodup_append.mp hnd).1, hR.owned, hR.known, hR.no_none, hR.ordered_isSome, hR.rooms⟩
    · intro q hq
      rw [Option.some.injEq] at hq
      exact hq ▸ ⟨hlt, ht⟩
    · have h1 : q ∈ e.freePages ↔ q ∈ e.freePages.dropLast ∨ q = p := by
        conv_lhs => rw [hsplit]
        rw [List.mem_append, List.mem_singleton]
      have h2 := hR.mem_free q
      constructor
      · intro hq
        have h3 := h2.mp (h1.mpr (.inl hq))
        refine ⟨h3.1, h3.2.1, ?_⟩
        rintro h4
        rw [Option.some.injEq] at h4
        exact hfresh (h4 ▸ hq)
      · rintro ⟨hq, hn, hne⟩
        rcases h1.mp (h2.mpr ⟨hq, hn, by simp⟩) with h3 | h3
        · exact h3
        · exact absurd (by rw [h3]) hne

/-- No page is left and nothing is evicted. -/
lemma Rep.getNextFreePage_full (hR : Rep cfg e tbl none) (hp : e.freePages = [])
    (hl : cfg.applyLruEviction = false) : e.getNextFreePage cfg d o = some (e, d, none) := by
  simp [Engine.getNextFreePage, hR.pageWithRoom o, hp, hl]

/-- No page is left and the back of the LRU list is evicted. -/
lemma Rep.getNextFreePage_evict (hR : Rep cfg e tbl none) (hp : e.freePages = [])
    (hl : cfg.applyLruEviction = true) {n p : ℕ} (hv : e.lruMainVector.getLast? = some (n, p)) :
    e.getNextFreePage cfg d o = some ((e.evictPage cfg d p).1, (e.evictPage cfg d p).2,
      some p) := by
  simp [Engine.getNextFreePage, hR.pageWithRoom o, hp, hl, hv]

/-- No page is left and the LRU list is empty: the back of an empty list is taken. -/
lemma Rep.getNextFreePage_stuck (hR : Rep cfg e tbl none) (hp : e.freePages = [])
    (hl : cfg.applyLruEviction = true) (hv : e.lruMainVector.getLast? = none) :
    e.getNextFreePage cfg d o = none := by
  simp [Engine.getNextFreePage, hR.pageWithRoom o, hp, hl, hv]

end

/-! ### Eviction -/

lemma syncData_fst (cfg : Config) (pg : Page) (d : Disk) :
    (pg.syncData cfg d).1.pageOwnerId = pg.pageOwnerId := by
  rw [Page.syncData]
  dsimp only
  split_ifs <;> rfl

/-- The page that is evicted is reset and still labelled with its last owner. -/
lemma searchIndex_evictPage (h : OneBlock cfg) (e : Engine) (d : Disk) (p : ℕ) :
    BarePage cfg ((e.evictPage cfg d p).1.searchIndex p) ∧
      ((e.evictPage cfg d p).1.searchIndex p).pageOwnerId = (e.searchIndex p).pageOwnerId ∧
      ∀ q, q ≠ p → (e.evictPage cfg d p).1.searchIndex q = e.searchIndex q := by
  have hp : (e.evictPage cfg d p).1.searchIndex p
      = (if (e.searchIndex p).isDirty then (e.searchIndex p).syncData cfg d
          else (e.searchIndex p, d)).1.reset cfg := by
    simp [evictPage]
  refine ⟨?_, ?_, fun q hq => ?_⟩
  · rw [hp]
    exact h.barePage_reset _
  · rw [hp, Page.reset]
    dsimp only
    split_ifs
    · exact syncData_fst cfg _ d
    · rfl
  · simp [evictPage, Engine.setPage, hq]

/-- The page of a block is taken from its owner. -/
lemma Rep.evictPage (h : OneBlock cfg) (hR : Rep cfg e tbl none) {p : ℕ} {o : String} {b : ℤ}
    (hp : tbl p = some (o, b)) (d : Disk) :
    Rep cfg (e.evictPage cfg d p).1 (Function.update tbl p none) (some p) := by
  obtain ⟨-, -, hne⟩ := searchIndex_evictPage h e d p
  have howner := (hR.usedPage hp).owner
  have htbl : ∀ q, q ≠ p → Function.update tbl p none q = tbl q :=
    fun q hq => Function.update_of_ne hq _ _
  have howned : (e.evictPage cfg d p).1.ownerPagesMapping
      = e.ownerPagesMapping.update o fun s => s.erase p := by rw [← howner]; rfl
  refine
    { used := fun q o' b' hq => ?_, free := fun q hlt hq hh => ?_, inHand := fun q hq => ?_,
      mem_free := fun q => ?_, nodup := hR.nodup, owned := fun o' s hs => ?_,
      known := fun q o' b' hq => ?_, no_none := ?_, ordered_isSome := fun o' => ?_,
      rooms := fun o' => ?_ }
  · have hqp : q ≠ p := fun heq => by rw [heq, Function.update_self] at hq; cases hq
    rw [htbl q hqp] at hq
    rw [hne q hqp]
    exact hR.used q o' b' hq
  · have hqp : q ≠ p := fun heq => hh (by rw [heq])
    rw [htbl q hqp] at hq
    rw [hne q hqp]
    exact hR.free q hlt hq (by simp)
  · rw [Option.some.injEq] at hq
    subst hq
    exact ⟨hR.lt hp, Function.update_self _ _ _⟩
  · have hfree : (e.evictPage cfg d p).1.freePages = e.freePages := rfl
    rw [hfree, hR.mem_free q]
    by_cases hqp : q = p
    · subst hqp
      simp [hp]
    · have hqp' : ¬ p = q := fun heq => hqp heq.symm
      simp [htbl q hqp, hqp']
  · rw [howned, Map.lookup_update] at hs
    split_ifs at hs with ho
    · obtain ⟨s', hs', rfl⟩ := Option.map_eq_some_iff.mp hs
      obtain ⟨hnd, hmem⟩ := hR.owned o s' hs'
      refine ⟨hnd.erase p, fun q => ?_⟩
      rw [hnd.mem_erase_iff, hmem q, ho]
      constructor
      · rintro ⟨hqp, b', hb'⟩
        exact ⟨b', by rw [htbl q hqp, hb']⟩
      · rintro ⟨b', hb'⟩
        have hqp : q ≠ p := fun heq => by rw [heq, Function.update_self] at hb'; cases hb'
        exact ⟨hqp, b', by rw [← hb', htbl q hqp]⟩
    · -- another owner
      obtain ⟨hnd, hmem⟩ := hR.owned o' s hs
      refine ⟨hnd, fun q => ?_⟩
      rw [hmem q]
      by_cases hqp : q = p
      · subst hqp
        have ho' : o ≠ o' := fun heq => ho heq.symm
        simp [hp, ho']
      · rw [htbl q hqp]
  · have hqp : q ≠ p := fun heq => by rw [heq, Function.update_self] at hq; cases hq
    rw [htbl q hqp] at hq
    rw [howned, Map.isSome_lookup_update]
    exact hR.known q o' b' hq
  · have h1 := Map.isSome_lookup_update e.ownerPagesMapping o "none" fun s => s.erase p
    rw [hR.no_none, ← howned] at h1
    simpa using h1
  · have hord : ((e.evictPage cfg d p).1.ownerOrderedPagesMapping.lookup o').isSome
        = (e.ownerOrderedPagesMapping.lookup o').isSome := Map.isSome_lookup_update _ _ _ _
    rw [hord, howned, Map.isSome_lookup_update]
    exact hR.ordered_isSome o'
  · rw [howned, Map.isSome_lookup_update]
    exact hR.rooms o'

end Engine

end LazyFS
