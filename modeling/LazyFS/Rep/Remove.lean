import LazyFS.Rep.Allocate

/-!
Blocks leave their pages: `remove_cached_blocks` and `truncate_cached_blocks`.

* `PageTable.without`: the table without the blocks of one owner; `Rep.removeCachedBlocks`.
* `Rep.truncateBlock_partial`, `Rep.truncateBlock_whole`: one turn of the truncation loop, on
  the block that is cut and on a block that goes.
-/

namespace LazyFS

namespace PageTable

/-- The table without the blocks of one owner. -/
def without (tbl : PageTable) (o : String) : PageTable := fun p => (tbl p).filter fun ob => ob.1 ≠ o

lemma without_eq_some {tbl : PageTable} {o o' : String} {p : ℕ} {b : ℤ} :
    tbl.without o p = some (o', b) ↔ o' ≠ o ∧ tbl p = some (o', b) := by
  rw [without, Option.filter_eq_some_iff, decide_eq_true_eq]
  exact and_comm

lemma without_eq_none {tbl : PageTable} {o : String} {p : ℕ} :
    tbl.without o p = none ↔ tbl p = none ∨ ∃ b, tbl p = some (o, b) := by
  cases h : tbl p with
  | none => simp [without, h]
  | some ob =>
      obtain ⟨o', b⟩ := ob
      simp [without, h]

end PageTable

namespace Engine

variable {cfg : Config} {e e' : Engine} {tbl : PageTable}

/-! ### `remove_cached_blocks` -/

/-- A page after it goes back to the free list. -/
def releasedPage (cfg : Config) (pg : Page) : Page := (pg.reset cfg).changeOwner "none"

lemma sameStore_releasePage (cfg : Config) (e : Engine) (p : ℕ) :
    SameStore { (e.setPage p (releasedPage cfg (e.searchIndex p))) with
      freePages := e.freePages ++ [p] } (e.releasePage cfg p) := by
  rw [releasePage]
  dsimp only
  split_ifs
  · obtain ⟨h1, h2, h3, h4, h5⟩ := sameStore_lruErase { e with freePages := e.freePages ++ [p] } p
    refine ⟨?_, h2, h3, h4, h5⟩
    simp only [setPage, h1]
    rfl
  · exact .refl _

lemma searchIndex_releasePage (cfg : Config) (e : Engine) (p : ℕ) :
    (e.releasePage cfg p).searchIndex
      = Function.update e.searchIndex p (releasedPage cfg (e.searchIndex p)) :=
  (sameStore_releasePage cfg e p).searchIndex

/-- The pages of a list released one after the other. -/
lemma foldl_releasePage (cfg : Config) (l : List ℕ) (hl : l.Nodup) (e : Engine) :
    (∀ q, (l.foldl (releasePage cfg) e).searchIndex q
      = if q ∈ l then releasedPage cfg (e.searchIndex q) else e.searchIndex q) ∧
    (l.foldl (releasePage cfg) e).freePages = e.freePages ++ l ∧
    (l.foldl (releasePage cfg) e).ownerPagesMapping = e.ownerPagesMapping ∧
    (l.foldl (releasePage cfg) e).ownerOrderedPagesMapping = e.ownerOrderedPagesMapping ∧
    (l.foldl (releasePage cfg) e).ownerFreePagesMapping = e.ownerFreePagesMapping := by
  induction l generalizing e with
  | nil => exact ⟨fun q => by simp, by simp, rfl, rfl, rfl⟩
  | cons p l ih =>
      obtain ⟨hp, hl⟩ := List.nodup_cons.mp hl
      obtain ⟨h1, h2, h3, h4, h5⟩ := ih hl (e.releasePage cfg p)
      have hs := sameStore_releasePage cfg e p
      rw [List.foldl_cons]
      refine ⟨fun q => ?_, ?_, ?_, ?_, ?_⟩
      · rw [h1, searchIndex_releasePage]
        by_cases hq : q = p
        · subst hq
          simp [hp]
        · simp [hq]
      · rw [h2, hs.freePages, List.append_assoc, List.singleton_append]
      · rw [h3, hs.ownerPagesMapping]
        rfl
      · rw [h4, hs.ownerOrderedPagesMapping]
        rfl
      · rw [h5, hs.ownerFreePagesMapping]
        rfl

/-- The engine after all blocks of an owner are removed. -/
structure Removed (cfg : Config) (e : Engine) (tbl : PageTable) (o : String)
    (e' : Engine) : Prop where
  rep : Rep cfg e' (tbl.without o) none
  searchIndex : ∀ q o' b, tbl q = some (o', b) → o' ≠ o → e'.searchIndex q = e.searchIndex q
  entry : ∀ o' b, e'.entry o' b = if o' = o then none else e.entry o' b

/-- An owner without pages loses the page kept for its room at most. -/
lemma Rep.removed_of_unknown (hR : Rep cfg e tbl none) {o : String}
    (hs : e.ownerPagesMapping.lookup o = none) :
    Removed cfg e tbl o (e.removeCachedBlocks cfg o) := by
  have hno : ∀ q b, tbl q ≠ some (o, b) := fun q b hq => by
    have h1 := hR.known q o b hq
    rw [hs] at h1
    cases h1
  have hm : e.ownerOrderedPagesMapping.lookup o = none := by
    have h1 := hR.ordered_isSome o
    rw [hs] at h1
    simpa using h1
  have hw : tbl.without o = tbl := by
    funext q
    cases hq : tbl q with
    | none => exact PageTable.without_eq_none.mpr (.inl hq)
    | some ob =>
        obtain ⟨o', b⟩ := ob
        exact PageTable.without_eq_some.mpr ⟨fun ho => hno q b (ho ▸ hq), hq⟩
  have heq : e.removeCachedBlocks cfg o
      = { e with ownerFreePagesMapping := e.ownerFreePagesMapping.erase o } := by
    simp only [Engine.removeCachedBlocks, hs]
  rw [heq]
  refine ⟨?_, fun q o' b _ _ => rfl, fun o' b => ?_⟩
  · rw [hw]
    refine ⟨hR.used, hR.free, hR.inHand, hR.mem_free, hR.nodup, hR.owned, hR.known, hR.no_none,
      hR.ordered_isSome, fun o' => ?_⟩
    show AList.lookup o' (AList.erase o e.ownerFreePagesMapping) = _
    rw [Map.lookup_erase']
    split_ifs with h1 h2 h2
    · rw [h1, hs] at h2
      cases h2
    · rfl
    · rw [hR.rooms, if_pos h2]
    · rw [hR.rooms, if_neg h2]
  · split_ifs with ho
    · subst ho
      simp only [Engine.entry, hm, Option.bind_none]
    · rfl

/-- The pages of an owner go back to the free list. -/
lemma Rep.removed_of_known (h : OneBlock cfg) (hR : Rep cfg e tbl none) {o : String} {s : List ℕ}
    (hs : e.ownerPagesMapping.lookup o = some s) :
    Removed cfg e tbl o (e.removeCachedBlocks cfg o) := by
  obtain ⟨hnd, hmem⟩ := hR.owned o s hs
  have hperm := cfg.unordered_perm s
  have hmem' : ∀ q, q ∈ cfg.unordered s ↔ ∃ b, tbl q = some (o, b) := fun q => by
    rw [hperm.mem_iff, hmem]
  obtain ⟨h1, h2, h3, h4, h5⟩ := foldl_releasePage cfg (cfg.unordered s)
    (hperm.nodup_iff.mpr hnd) { e with ownerFreePagesMapping := e.ownerFreePagesMapping.erase o }
  set f := (cfg.unordered s).foldl (releasePage cfg)
    { e with ownerFreePagesMapping := e.ownerFreePagesMapping.erase o } with hf
  have heq : e.removeCachedBlocks cfg o = { f with
      ownerPagesMapping := f.ownerPagesMapping.erase o
      ownerOrderedPagesMapping := f.ownerOrderedPagesMapping.erase o } := by
    simp only [Engine.removeCachedBlocks, hs, hf]
  -- the pages of the other owners are not touched
  have hsame : ∀ q o' b, tbl q = some (o', b) → o' ≠ o →
      f.searchIndex q = e.searchIndex q := by
    intro q o' b hq ho
    rw [h1, if_neg]
    rintro hq'
    obtain ⟨b', hb'⟩ := (hmem' q).mp hq'
    rw [hq, Option.some.injEq, Prod.mk.injEq] at hb'
    exact ho hb'.1
  rw [heq]
  refine ⟨⟨fun q o' b hq => ?_, fun q hlt hq _ => ?_, fun q hq => absurd hq (by simp),
    fun q => ?_, ?_, fun o' s' hs' => ?_, fun q o' b hq => ?_, ?_, fun o' => ?_, fun o' => ?_⟩,
    hsame, fun o' b => ?_⟩
  · obtain ⟨ho, hq⟩ := PageTable.without_eq_some.mp hq
    obtain ⟨h6, h7, h8⟩ := hR.used q o' b hq
    exact ⟨h6, h7, (hsame q o' b hq ho).symm ▸ h8⟩
  · -- a page that is free now was free before, or has just been released
    show FreePage cfg (f.searchIndex q)
    rw [h1]
    rcases PageTable.without_eq_none.mp hq with hq | hq
    · rw [if_neg (by rw [hmem', hq]; simp)]
      exact hR.free q hlt hq (by simp)
    · rw [if_pos ((hmem' q).mpr hq)]
      exact h.freePage_released _
  · show q ∈ f.freePages ↔ _
    rw [h2, List.mem_append, hmem', hR.mem_free q, PageTable.without_eq_none]
    constructor
    · rintro (⟨h6, h7, -⟩ | ⟨b, hb⟩)
      · exact ⟨h6, .inl h7, by simp⟩
      · exact ⟨hR.lt hb, .inr ⟨b, hb⟩, by simp⟩
    · rintro ⟨h6, h7 | h7, -⟩
      · exact .inl ⟨h6, h7, by simp⟩
      · exact .inr h7
  · show f.freePages.Nodup
    rw [h2, List.nodup_append]
    refine ⟨hR.nodup, hperm.nodup_iff.mpr hnd, fun q hq q' hq' => ?_⟩
    rintro rfl
    obtain ⟨b, hb⟩ := (hmem' q).mp hq'
    rw [((hR.mem_free q).mp hq).2.1] at hb
    cases hb
  · simp only [h3, Map.lookup_erase'] at hs'
    split_ifs at hs' with ho
    obtain ⟨h6, h7⟩ := hR.owned o' s' hs'
    refine ⟨h6, fun q => ?_⟩
    simp only [h7 q, PageTable.without_eq_some, ne_eq, ho, not_false_eq_true, true_and]
  · obtain ⟨ho, hq⟩ := PageTable.without_eq_some.mp hq
    simp only [h3, Map.lookup_erase', if_neg ho]
    exact hR.known q o' b hq
  · simp only [h3, Map.lookup_erase', hR.no_none, ite_self]
  · simp only [h3, h4, Map.lookup_erase']
    split_ifs
    · rfl
    · exact hR.ordered_isSome o'
  · simp only [h3, h5, Map.lookup_erase']
    by_cases ho : o' = o
    · simp [ho]
    · simp only [if_neg ho]
      exact hR.rooms o'
  · simp only [Engine.entry, h4, Map.lookup_erase']
    split_ifs <;> rfl

lemma Rep.removeCachedBlocks (h : OneBlock cfg) (hR : Rep cfg e tbl none) (o : String) :
    Removed cfg e tbl o (e.removeCachedBlocks cfg o) := by
  cases hs : e.ownerPagesMapping.lookup o with
  | none => exact hR.removed_of_unknown hs
  | some s => exact hR.removed_of_known h hs

lemma Removed.exact {o : String} (hm : Removed cfg e tbl o e') (hX : Exact cfg e tbl) :
    Exact cfg e' (tbl.without o) := by
  refine ⟨fun o' b ent he => ?_, fun q o' b hq => ?_⟩
  · rw [hm.entry] at he
    split_ifs at he with ho
    obtain ⟨h1, h2⟩ := hX.of_entry o' b ent he
    exact ⟨PageTable.without_eq_some.mpr ⟨ho, h1⟩, h2⟩
  · obtain ⟨ho, hq⟩ := PageTable.without_eq_some.mp hq
    obtain ⟨ent, he, hid⟩ := hX.entry_of q o' b hq
    exact ⟨ent, by rw [hm.entry, if_neg ho, he], hid⟩

/-! ### `truncate_cached_blocks` -/

/-- The block that is cut: its page stays, with a lower readable end. -/
lemma Rep.truncateBlock_partial (hR : Rep cfg e tbl none) {p : ℕ} {o : String} {b : ℤ}
    (hp : tbl p = some (o, b)) {index : ℤ} (hi : 0 < index) :
    e.truncateBlock cfg o b index (b, some p) = some (e.setPage p
      (((e.searchIndex p).makeBlockReadableTo b (index - 1)).writeNullFrom cfg b index)) := by
  have hu := hR.usedPage hp
  have hown : (e.searchIndex p).isPageOwner o = true := by
    rw [Page.isPageOwner, hu.owner, decide_eq_true_eq]
  have hc : (e.searchIndex p).containsBlock b = true := by
    rw [hu.containsBlock, decide_eq_true_eq]
  simp [Engine.truncateBlock, hR.getPagePtr hp, hown, hc, hi]

/-- The engine after one block leaves its page. -/
structure Dropped (cfg : Config) (e : Engine) (tbl : PageTable) (p : ℕ) (o : String) (b : ℤ)
    (e' : Engine) : Prop where
  rep : Rep cfg e' (Function.update tbl p none) none
  searchIndex : ∀ q, q ≠ p → e'.searchIndex q = e.searchIndex q
  entry : ∀ o' b', e'.entry o' b' = if o' = o ∧ b' = b then none else e.entry o' b'

/-- The maps of the owners after the page of `(o, b)` is free. -/
lemma Rep.pageLeft (hR : Rep cfg e tbl none) {p : ℕ} {o : String} {b : ℤ} (hp : tbl p = some (o, b))
    {s : List ℕ} (hs : e.ownerPagesMapping.lookup o = some s) {m : Map ℤ OrderedEntry}
    (hself : FreePage cfg (e'.searchIndex p))
    (hidx : ∀ q, q ≠ p → e'.searchIndex q = e.searchIndex q)
    (hfree : e'.freePages = e.freePages ++ [p])
    (howner : e'.ownerPagesMapping = e.ownerPagesMapping.set o (s.erase p))
    (hord : e'.ownerOrderedPagesMapping = e.ownerOrderedPagesMapping.set o m)
    (hrooms : e'.ownerFreePagesMapping = e.ownerFreePagesMapping) :
    Rep cfg e' (Function.update tbl p none) none := by
  have htbl : ∀ q, q ≠ p → Function.update tbl p none q = tbl q :=
    fun q hq => Function.update_of_ne hq _ _
  have hne : ∀ q o' b', Function.update tbl p none q = some (o', b') → q ≠ p := by
    rintro q o' b' hq rfl
    rw [Function.update_self] at hq
    cases hq
  obtain ⟨hnd, hmem⟩ := hR.owned o s hs
  refine ⟨fun q o' b' hq => ?_, fun q hlt hq _ => ?_, fun q hq => absurd hq (by simp),
    fun q => ?_, ?_, fun o' s' hs' => ?_, fun q o' b' hq => ?_, ?_, fun o' => ?_, fun o' => ?_⟩
  -- the pages
  · have hqp := hne q o' b' hq
    rw [htbl q hqp] at hq
    rw [hidx q hqp]
    exact hR.used q o' b' hq
  · by_cases hqp : q = p
    · exact hqp ▸ hself
    · rw [htbl q hqp] at hq
      rw [hidx q hqp]
      exact hR.free q hlt hq (by simp)
  -- the free pages
  · rw [hfree, List.mem_append, List.mem_singleton, hR.mem_free q]
    by_cases hqp : q = p
    · simp [hqp, hR.lt hp]
    · simp [hqp]
  · rw [hfree, List.nodup_append]
    refine ⟨hR.nodup, List.nodup_singleton p, fun q hq q' hq' => ?_⟩
    rw [List.mem_singleton] at hq'
    subst hq'
    rintro rfl
    rw [((hR.mem_free q).mp hq).2.1] at hp
    cases hp
  -- the pages of the owners
  · rw [howner, Map.lookup_set] at hs'
    split_ifs at hs' with ho
    · rw [Option.some.injEq] at hs'
      subst hs' ho
      refine ⟨hnd.erase p, fun q => ?_⟩
      rw [hnd.mem_erase_iff, hmem q]
      by_cases hqp : q = p
      · simp [hqp]
      · simp [hqp]
    · obtain ⟨h1, h2⟩ := hR.owned o' s' hs'
      refine ⟨h1, fun q => ?_⟩
      rw [h2 q]
      by_cases hqp : q = p
      · have ho' : ¬ o = o' := fun heq => ho heq.symm
        simp [hqp, hp, ho']
      · simp [hqp]
  · rw [htbl q (hne q o' b' hq)] at hq
    rw [howner, Map.lookup_set]
    split_ifs
    · rfl
    · exact hR.known q o' b' hq
  · have ho : "none" ≠ o := fun ho => (hR.used p o b hp).2.1 ho.symm
    rw [howner, Map.lookup_set_ne _ _ ho]
    exact hR.no_none
  -- the other maps know the same owners
  · rw [hord, howner, Map.lookup_set, Map.lookup_set]
    split_ifs
    · rfl
    · exact hR.ordered_isSome o'
  · rw [hrooms, hR.rooms, howner, Map.lookup_set]
    by_cases ho : o' = o
    · subst ho
      simp [hs]
    · simp [ho]

/-- A block that goes: its page is released. -/
lemma Rep.truncateBlock_whole (h : OneBlock cfg) (hR : Rep cfg e tbl none) {p : ℕ} {o : String}
    {b : ℤ} (hp : tbl p = some (o, b)) {fromId index : ℤ} (hi : ¬ (b = fromId ∧ 0 < index)) :
    ∃ e', e.truncateBlock cfg o fromId index (b, some p) = some e' ∧
      Dropped cfg e tbl p o b e' := by
  have hu := hR.usedPage hp
  have hown : (e.searchIndex p).isPageOwner o = true := by
    rw [Page.isPageOwner, hu.owner, decide_eq_true_eq]
  obtain ⟨s, m, hs, hm, -⟩ := hR.lookup_owner hp
  set e1 : Engine := { (e.setPage p ((e.searchIndex p).removeBlock cfg b)) with
    ownerPagesMapping := e.ownerPagesMapping.set o (s.erase p)
    ownerOrderedPagesMapping := e.ownerOrderedPagesMapping.set o (m.erase b) } with he1
  have heq : e.truncateBlock cfg o fromId index (b, some p) = some (e1.releasePage cfg p) := by
    simp only [Engine.truncateBlock, Option.bind_eq_bind, Option.bind_some, hR.getPagePtr hp, hown,
      if_true, if_neg hi, hs, hm, hu.isDirty_removeBlock, Bool.false_eq_true, if_false, he1]
  have hsame := sameStore_releasePage cfg e1 p
  have hself : FreePage cfg ((e1.releasePage cfg p).searchIndex p) := by
    rw [searchIndex_releasePage, Function.update_self]
    exact h.freePage_released _
  have hidx : ∀ q, q ≠ p → (e1.releasePage cfg p).searchIndex q = e.searchIndex q := by
    intro q hq
    rw [searchIndex_releasePage, Function.update_of_ne hq]
    exact searchIndex_setPage_ne e _ hq
  have hord : (e1.releasePage cfg p).ownerOrderedPagesMapping
      = e.ownerOrderedPagesMapping.set o (m.erase b) := hsame.ownerOrderedPagesMapping
  refine ⟨_, heq, hR.pageLeft hp hs hself hidx hsame.freePages hsame.ownerPagesMapping hord
    hsame.ownerFreePagesMapping, hidx, fun o' b' => ?_⟩
  rw [Engine.entry, hord, entry_set]
  by_cases ho : o' = o
  · subst ho
    rw [if_pos rfl, Map.lookup_erase', Engine.entry, hm, Option.bind_some]
    simp only [true_and]
  · rw [if_neg ho, if_neg (fun h => ho h.1)]

lemma Dropped.exact {p : ℕ} {o : String} {b : ℤ} (hd : Dropped cfg e tbl p o b e')
    (hp : tbl p = some (o, b)) (hX : Exact cfg e tbl) :
    Exact cfg e' (Function.update tbl p none) := by
  refine ⟨fun o' b' ent he => ?_, fun q o' b' hq => ?_⟩
  · rw [hd.entry] at he
    split_ifs at he with hc
    obtain ⟨h1, h2⟩ := hX.of_entry o' b' ent he
    have hne : ent.pageId ≠ p := by
      intro heq
      rw [heq, hp, Option.some.injEq, Prod.mk.injEq] at h1
      exact hc ⟨h1.1.symm, h1.2.symm⟩
    exact ⟨by rw [Function.update_of_ne hne, h1], h2⟩
  · have hqp : q ≠ p := fun heq => by rw [heq, Function.update_self] at hq; cases hq
    rw [Function.update_of_ne hqp] at hq
    obtain ⟨ent, he, hid⟩ := hX.entry_of q o' b' hq
    refine ⟨ent, ?_, hid⟩
    rw [hd.entry, if_neg, he]
    rintro ⟨rfl, rfl⟩
    obtain ⟨ent', he', hid'⟩ := hX.entry_of p o' b' hp
    rw [he, Option.some.injEq] at he'
    exact hqp (by rw [← hid, he', hid'])

end Engine

end LazyFS
