import LazyFS.Rep.Lru
import LazyFS.Rep.Slots

/-!
The free list and the LRU list share the pages.

* `Engine.Split`: the free pages are those without an owner, and every other page is in the LRU
  list, under its iterator; it needs no page table, so that it bears entries of blocks which left
  their page.
* `Engine.Owned`: the pages an owner is said to have bear its label.
* `Split.allocateBlock`, `Split.getLoop`, `Split.removeCachedBlocks`, `Split.truncateBlock`: kept by
  every turn of a loop of the engine.
-/

namespace LazyFS

namespace Engine

variable {cfg : Config} {e e' : Engine} {o : String} {p : ℕ}

/-- A page in use is one that is not free. -/
def Busy (cfg : Config) (e : Engine) (p : ℕ) : Prop := p < cfg.cacheNrPages ∧ p ∉ e.freePages

/-- The pages are shared by the free list and the LRU list. -/
structure Split (cfg : Config) (e : Engine) : Prop where
  nodup : e.freePages.Nodup
  free : ∀ p, p ∈ e.freePages ↔ p < cfg.cacheNrPages ∧ (e.searchIndex p).pageOwnerId = "none"
  bare : ∀ p ∈ e.freePages, (e.searchIndex p).freeBlockIndexes = Page.slots cfg
  lruOk : LruOk cfg e (Busy cfg e)
  listed : ∀ p, Busy cfg e p → p ∈ e.lruMainVector.map Prod.snd

/-- The pages of an owner are different pages with its label; no page is the owner `none`'s, and
none is kept for its room. -/
structure Owned (cfg : Config) (e : Engine) : Prop where
  nodup : ∀ o s, e.ownerPagesMapping.lookup o = some s → s.Nodup
  label : ∀ o s, e.ownerPagesMapping.lookup o = some s → ∀ p ∈ s,
    p < cfg.cacheNrPages ∧ (e.searchIndex p).pageOwnerId = o
  noNone : e.ownerPagesMapping.lookup "none" = none
  rooms : ∀ o v, e.ownerFreePagesMapping.lookup o = some v → v = []

/-- Another engine with the same lists, labels and free slots. -/
structure SameSplit (e e' : Engine) : Prop where
  freePages : e'.freePages = e.freePages
  label : ∀ p, (e'.searchIndex p).pageOwnerId = (e.searchIndex p).pageOwnerId
  bare : ∀ p ∈ e.freePages, (e'.searchIndex p).freeBlockIndexes = (e.searchIndex p).freeBlockIndexes
  lru : e'.lru = e.lru
  owners : e'.ownerPagesMapping = e.ownerPagesMapping
  rooms : e'.ownerFreePagesMapping = e.ownerFreePagesMapping

lemma SameSplit.split (h : SameSplit e e') (hS : Split cfg e) : Split cfg e' := by
  have hbusy : Busy cfg e' = Busy cfg e := by
    funext q
    rw [Busy, Busy, h.freePages]
  have hlist : e'.lruMainVector = e.lruMainVector := congrArg Prod.fst h.lru
  refine ⟨h.freePages ▸ hS.nodup, fun q => ?_, fun q hq => ?_, hbusy ▸ hS.lruOk.congr h.lru,
    fun q hq => ?_⟩
  · rw [h.freePages, h.label, hS.free]
  · rw [h.freePages] at hq
    rw [h.bare q hq, hS.bare q hq]
  · rw [hlist]
    exact hS.listed q (hbusy ▸ hq)

/-- A page with the same label and the same free slots. -/
lemma SameSplit.setPage {pg : Page} (hlabel : pg.pageOwnerId = (e.searchIndex p).pageOwnerId)
    (hbare : p ∈ e.freePages → pg.freeBlockIndexes = (e.searchIndex p).freeBlockIndexes) :
    SameSplit e (e.setPage p pg) := by
  refine ⟨rfl, fun q => ?_, fun q hin => ?_, rfl, rfl, rfl⟩
  · by_cases hq : q = p
    · subst hq
      rw [searchIndex_setPage_self, hlabel]
    · rw [searchIndex_setPage_ne _ _ hq]
  · by_cases hq : q = p
    · subst hq
      rw [searchIndex_setPage_self, hbare hin]
    · rw [searchIndex_setPage_ne _ _ hq]

/-- The ordered map of blocks plays no part. -/
lemma SameSplit.ordered (h : SameSplit e e') (m : Map String (Map ℤ OrderedEntry)) :
    SameSplit e { e' with ownerOrderedPagesMapping := m } :=
  ⟨h.freePages, h.label, h.bare, h.lru, h.owners, h.rooms⟩

lemma SameSplit.owned (h : SameSplit e e') (hO : Owned cfg e) : Owned cfg e' where
  nodup := h.owners ▸ hO.nodup
  label := fun o s hs p hp => by
    rw [h.owners] at hs
    rw [h.label]
    exact hO.label o s hs p hp
  noNone := h.owners ▸ hO.noNone
  rooms := h.rooms ▸ hO.rooms

namespace Split

lemma busy_of_label (hS : Split cfg e) (hlt : p < cfg.cacheNrPages)
    (hp : (e.searchIndex p).pageOwnerId ≠ "none") : Busy cfg e p :=
  ⟨hlt, fun hin => hp ((hS.free p).mp hin).2⟩

/-- A page is listed once. -/
lemma nodup_pages (hS : Split cfg e) : (e.lruMainVector.map Prod.snd).Nodup := by
  refine List.Nodup.map_on (fun x hx y hy heq => ?_) (hS.lruOk.nodup.of_map _)
  have hxy : x.1 = y.1 := (hS.lruOk.node_eq (n := y.1) (p := y.2) hy hx).mpr heq
  exact Prod.ext hxy heq

lemma mem_pages (hS : Split cfg e) (p : ℕ) : p ∈ e.lruMainVector.map Prod.snd ↔ Busy cfg e p := by
  refine ⟨fun hp => ?_, hS.listed p⟩
  obtain ⟨x, hx, rfl⟩ := List.mem_map.mp hp
  exact hS.lruOk.live x hx

/-- The free list and the LRU list have the pages together. -/
lemma length_add (hS : Split cfg e) : e.freePages.length + e.lruMainVector.length
    = cfg.cacheNrPages := by
  have hperm : (e.freePages ++ e.lruMainVector.map Prod.snd).Perm
      (List.range cfg.cacheNrPages) := by
    refine (List.perm_ext_iff_of_nodup ?_ List.nodup_range).mpr fun q => ?_
    · refine List.nodup_append.mpr ⟨hS.nodup, hS.nodup_pages, fun a ha b hb heq => ?_⟩
      exact ((hS.mem_pages b).mp hb).2 (heq ▸ ha)
    · rw [List.mem_append, hS.mem_pages, List.mem_range, Busy]
      by_cases hq : q ∈ e.freePages
      · simp [hq, ((hS.free q).mp hq).1]
      · simp [hq]
  have hlen := hperm.length_eq
  rw [List.length_append, List.length_map, List.length_range] at hlen
  exact hlen

/-- A visited page is in the list, with the pages that were. -/
lemma mem_visit (hL : LruOk cfg e live) (p q : ℕ) :
    q ∈ (e.applyLruOnRead p).lruMainVector.map Prod.snd ↔
    q = p ∨ q ∈ e.lruMainVector.map Prod.snd := by
  rw [Engine.applyLruOnRead, lruPushFront, List.map_cons, List.mem_cons]
  refine or_congr_right' fun hq => ?_
  constructor
  · intro h
    obtain ⟨x, hx, rfl⟩ := List.mem_map.mp h
    exact List.mem_map_of_mem ((hL.mem_lruErase p x).mp hx).1
  · intro h
    obtain ⟨x, hx, rfl⟩ := List.mem_map.mp h
    exact List.mem_map_of_mem ((hL.mem_lruErase p x).mpr ⟨hx, hq⟩)

/-- **A read** of a block of a page in use. -/
lemma visit (hS : Split cfg e) (hl : cfg.applyLruEviction = true) (hp : Busy cfg e p) :
    Split cfg (e.applyLruOnRead p) := by
  have hsame := sameStore_applyLruOnRead e p
  refine ⟨hsame.freePages ▸ hS.nodup, fun q => ?_, fun q hq => ?_, ?_, fun q hq => ?_⟩
  · rw [hsame.freePages, hsame.searchIndex]
    exact hS.free q
  · rw [hsame.searchIndex]
    exact hS.bare q (hsame.freePages ▸ hq)
  · refine (hS.lruOk.applyLruOnRead hl hp).mono fun q hq => ?_
    rwa [Busy, hsame.freePages]
  · rw [mem_visit hS.lruOk]
    refine .inr (hS.listed q ?_)
    rwa [Busy, hsame.freePages] at hq

/-- **A store** of a block in a page that is left or in use. -/
lemma store (hS : Split cfg e) (hl : cfg.applyLruEviction = true) (hlt : p < cfg.cacheNrPages)
    (ho : o ≠ "none") (hnd : e'.freePages.Nodup)
    (hfree : ∀ q, q ∈ e'.freePages ↔ q ∈ e.freePages ∧ q ≠ p)
    (hoth : ∀ q, q ≠ p → e'.searchIndex q = e.searchIndex q)
    (hown : (e'.searchIndex p).pageOwnerId = o) (hlru : e'.lru = (e.applyLruOnWrite cfg p).lru) :
    Split cfg e' := by
  have hle : ∀ q, Busy cfg e q → Busy cfg e' q :=
    fun q hq => ⟨hq.1, fun hin => hq.2 ((hfree q).mp hin).1⟩
  have hp : Busy cfg e' p := ⟨hlt, fun hin => ((hfree p).mp hin).2 rfl⟩
  have hL := hS.lruOk.mono hle
  have hlist : e'.lruMainVector = (e.applyLruOnRead p).lruMainVector := by
    rw [hL.applyLruOnWrite_eq (fun q hq => hq.1) hlt] at hlru
    exact congrArg Prod.fst hlru
  refine ⟨hnd, fun q => ?_, fun q hq => ?_, (hL.applyLruOnWrite hl hp).congr hlru, fun q hq => ?_⟩
  · rw [hfree, hS.free]
    by_cases hq : q = p
    · subst hq
      simp [hown, ho]
    · rw [hoth q hq, and_iff_left hq]
  · obtain ⟨hin, hne⟩ := (hfree q).mp hq
    rw [hoth q hne]
    exact hS.bare q hin
  · rw [hlist, mem_visit hL]
    by_cases hqp : q = p
    · exact .inl hqp
    · exact .inr (hS.listed q ⟨hq.1, fun hin => hq.2 ((hfree q).mpr ⟨hin, hqp⟩)⟩)

/-- **The release** of a page in use. -/
lemma releasePage (hS : Split cfg e) (hl : cfg.applyLruEviction = true) (hp : Busy cfg e p) :
    Split cfg (e.releasePage cfg p) := by
  have hs := sameStore_releasePage cfg e p
  have hfree : (e.releasePage cfg p).freePages = e.freePages ++ [p] := hs.freePages
  have hpage := searchIndex_releasePage cfg e p
  refine ⟨?_, fun q => ?_, fun q hq => ?_, ?_, fun q hq => ?_⟩
  · rw [hfree]
    exact List.nodup_append.mpr ⟨hS.nodup, List.nodup_singleton p, fun a ha b hb heq =>
      hp.2 (List.mem_singleton.mp hb ▸ heq ▸ ha)⟩
  · rw [hfree, hpage, List.mem_append, List.mem_singleton, hS.free]
    by_cases hq : q = p
    · subst hq
      simp [releasedPage, Page.changeOwner, hp.1]
    · rw [Function.update_of_ne hq, or_iff_left hq]
  · rw [hfree, List.mem_append, List.mem_singleton] at hq
    rw [hpage]
    by_cases hqp : q = p
    · subst hqp
      rw [Function.update_self]
      rfl
    · rw [Function.update_of_ne hqp]
      exact hS.bare q (hq.resolve_right hqp)
  · refine (hS.lruOk.releasePage p).mono fun q hq => ⟨hq.1.1, ?_⟩
    rw [hfree, List.mem_append, List.mem_singleton, not_or]
    exact ⟨hq.1.2, hq.2⟩
  · rw [Busy, hfree, List.mem_append, List.mem_singleton, not_or] at hq
    obtain ⟨x, hx, rfl⟩ := List.mem_map.mp (hS.listed q ⟨hq.1, hq.2.1⟩)
    exact List.mem_map_of_mem ((hS.lruOk.mem_releasePage hl p x).mpr ⟨hx, hq.2.2⟩)

/-- A new engine. -/
lemma new (cfg : Config) : Split cfg (Engine.new cfg) where
  nodup := List.nodup_range
  free := fun p => by
    show p ∈ List.range _ ↔ p < _ ∧ "none" = "none"
    rw [List.mem_range, and_iff_left rfl]
  bare := fun _ _ => rfl
  lruOk := ⟨fun p n => by simp [Engine.new], List.nodup_nil, fun _ hx => (by cases hx),
    fun _ hx => (by cases hx), fun _ => rfl⟩
  listed := fun p hp => absurd (List.mem_range.mpr hp.1) hp.2

end Split

/-! ### The pages of the owners -/

/-- The pages of the owners after the page `p`, labelled `real`, was given to `o`. -/
def OwnersAfter (o real : String) (p : ℕ) (e e' : Engine) : Prop :=
  ∀ o' s', e'.ownerPagesMapping.lookup o' = some s' →
    ∃ s, (e.ownerPagesMapping.lookup o' = some s ∨ (o' = o ∧ s = [])) ∧
      s' = if o' = o then s.insert p else if o' = real then s.erase p else s

lemma owners_dropRealOwner {b : ℤ} (h : e.dropRealOwner o p b = some e') :
    e'.lru = e.lru ∧ ∀ o' s', e'.ownerPagesMapping.lookup o' = some s' →
      ∃ s, e.ownerPagesMapping.lookup o' = some s ∧ s' = if o' = o then s.erase p else s := by
  rw [dropRealOwner] at h
  cases hs : e.ownerPagesMapping.lookup o with
  | none =>
      simp only [hs, Option.some.injEq] at h
      subst h
      refine ⟨rfl, fun o' s' hs' => ⟨s', hs', (if_neg ?_).symm⟩⟩
      rintro rfl
      rw [hs] at hs'
      cases hs'
  | some s =>
      simp only [hs] at h
      obtain ⟨m, -, h⟩ := Option.bind_eq_some_iff.mp h
      split_ifs at h
      · cases h
        refine ⟨rfl, fun o' s' hs' => ?_⟩
        simp only [Map.lookup_erase'] at hs'
        split_ifs at hs' with ho'
        exact ⟨s', hs', (if_neg ho').symm⟩
      · cases h
        refine ⟨rfl, fun o' s' hs' => ?_⟩
        simp only [Map.lookup_set] at hs'
        split_ifs at hs' with ho'
        · subst ho'
          exact ⟨s, hs, (Option.some.inj hs').symm.trans (if_pos rfl).symm⟩
        · exact ⟨s', hs', (if_neg ho').symm⟩

lemma owners_enterNewOwner {b : ℤ} {offs : ℤ × ℤ} (h : e.enterNewOwner o p b offs = some e') :
    e'.lru = e.lru ∧ ∀ o' s', e'.ownerPagesMapping.lookup o' = some s' →
      ∃ s, (e.ownerPagesMapping.lookup o' = some s ∨ (o' = o ∧ s = [])) ∧
        s' = if o' = o then s.insert p else s := by
  -- the end of the function enters the page when it has room
  have htail : ∀ e1 : Engine, (if (e1.searchIndex p).hasFreeSpace then do
        let v ← e1.ownerFreePagesMapping.lookup o
        some { e1 with ownerFreePagesMapping := e1.ownerFreePagesMapping.set o (v ++ [p]) }
        else some e1) = some e' → e'.lru = e1.lru ∧
            e'.ownerPagesMapping = e1.ownerPagesMapping := by
    intro e1 h1
    split_ifs at h1
    · obtain ⟨v, -, h1⟩ := Option.bind_eq_some_iff.mp h1
      cases h1
      exact ⟨rfl, rfl⟩
    · cases h1
      exact ⟨rfl, rfl⟩
  rw [enterNewOwner] at h
  dsimp only at h
  cases hs : e.ownerPagesMapping.lookup o with
  | none =>
      simp only [hs] at h
      obtain ⟨hlru, hmap⟩ := htail _ h
      refine ⟨hlru, fun o' s' hs' => ?_⟩
      rw [hmap] at hs'
      simp only [Map.lookup_insertNew, hs] at hs'
      split_ifs at hs' with ho'
      · exact ⟨[], .inr ⟨ho', rfl⟩, (Option.some.inj hs').symm.trans (by rw [if_pos ho']; rfl)⟩
      · exact ⟨s', .inl hs', (if_neg ho').symm⟩
  | some s =>
      simp only [hs] at h
      obtain ⟨m, -, h⟩ := Option.bind_eq_some_iff.mp h
      obtain ⟨hlru, hmap⟩ := htail _ h
      refine ⟨hlru, fun o' s' hs' => ?_⟩
      rw [hmap] at hs'
      simp only [Map.lookup_set] at hs'
      split_ifs at hs' with ho'
      · subst ho'
        exact ⟨s, .inl hs, (Option.some.inj hs').symm.trans (if_pos rfl).symm⟩
      · exact ⟨s', .inl hs', (if_neg ho').symm⟩

lemma owners_updateOwnerPages {b : ℤ} {offs : ℤ × ℤ} (hlt : p < cfg.cacheNrPages)
    (h : e.updateOwnerPages cfg o p b offs = some e') :
    e'.lru = e.lru ∧ OwnersAfter o (e.searchIndex p).pageOwnerId p e e' := by
  rw [updateOwnerPages, getPagePtr, if_pos hlt] at h
  dsimp only at h
  split_ifs at h with hsame
  · obtain ⟨hlru, hmap⟩ := owners_enterNewOwner h
    refine ⟨hlru, fun o' s' hs' => ?_⟩
    obtain ⟨s, hs, heq⟩ := hmap o' s' hs'
    refine ⟨s, hs, heq.trans ?_⟩
    rw [hsame]
    split_ifs <;> rfl
  · obtain ⟨e1, h1, h⟩ := Option.bind_eq_some_iff.mp h
    obtain ⟨hlru1, hmap1⟩ := owners_dropRealOwner h1
    obtain ⟨hlru, hmap⟩ := owners_enterNewOwner h
    refine ⟨hlru.trans hlru1, fun o' s' hs' => ?_⟩
    obtain ⟨s, hs | hs, heq⟩ := hmap o' s' hs'
    · obtain ⟨s0, hs0, heq0⟩ := hmap1 o' s hs
      refine ⟨s0, .inl hs0, heq.trans ?_⟩
      rw [heq0]
      by_cases ho' : o' = o
      · rw [if_pos ho', if_pos ho', if_neg fun hr => hsame (hr.symm.trans ho')]
      · rw [if_neg ho', if_neg ho']
    · exact ⟨s, .inr hs, heq.trans (by rw [if_pos hs.1, if_pos hs.1])⟩

/-- The owners when a page is given to another one and filled. -/
lemma Owned.store {e1 : Engine} (hO : Owned cfg e) (ho : o ≠ "none") (hlt : p < cfg.cacheNrPages)
    (hoth : ∀ q, q ≠ p → e1.searchIndex q = e.searchIndex q)
    (hown : (e1.searchIndex p).pageOwnerId = o)
    (hmap : OwnersAfter o (e.searchIndex p).pageOwnerId p e e1)
    (hrooms : RoomsAfter o p false e e1) :
    Owned cfg e1 := by
  have hold : ∀ o' s, (e.ownerPagesMapping.lookup o' = some s ∨ (o' = o ∧ s = [])) →
      s.Nodup ∧ ∀ q ∈ s, q < cfg.cacheNrPages ∧ (e.searchIndex q).pageOwnerId = o' := by
    rintro o' s (hs | ⟨-, rfl⟩)
    · exact ⟨hO.nodup o' s hs, hO.label o' s hs⟩
    · exact ⟨List.nodup_nil, fun q hq => by cases hq⟩
  refine ⟨fun o' s' hs' => ?_, fun o' s' hs' q hq => ?_, ?_, fun o' v hv => ?_⟩
  · obtain ⟨s, hs, rfl⟩ := hmap o' s' hs'
    obtain ⟨hnd, -⟩ := hold o' s hs
    split_ifs
    · exact hnd.insert
    · exact hnd.erase p
    · exact hnd
  · obtain ⟨s, hs, rfl⟩ := hmap o' s' hs'
    obtain ⟨hnd, hlabel⟩ := hold o' s hs
    -- the page is with its new owner, and has left the one of its label
    by_cases hqp : q = p
    · subst hqp
      refine ⟨hlt, ?_⟩
      rw [hown]
      by_contra hne
      rw [if_neg fun heq => hne heq.symm] at hq
      split_ifs at hq with hreal
      · exact hnd.not_mem_erase hq
      · exact hreal (hlabel q hq).2.symm
    · rw [hoth q hqp]
      refine hlabel q ?_
      split_ifs at hq
      · exact (List.mem_insert_iff.mp hq).resolve_left hqp
      · exact List.mem_of_mem_erase hq
      · exact hq
  · cases hs : e1.ownerPagesMapping.lookup "none" with
    | none => rfl
    | some s' =>
        obtain ⟨s, hs | hs, -⟩ := hmap "none" s' hs
        · rw [hO.noNone] at hs
          cases hs
        · exact absurd hs.1.symm ho
  · obtain ⟨v0, hv0, hv | ⟨-, hroom, -⟩⟩ := hrooms o' v hv
    · rw [hv]
      exact hv0.elim (hO.rooms o' v0) id
    · cases hroom

/-! ### Storing a block -/

/-- A page handed out: the last free page or the one at the back of the LRU list. -/
structure Handed (cfg : Config) (e : Engine) (p : ℕ) (e1 : Engine) : Prop where
  lt : p < cfg.cacheNrPages
  lru : e1.lru = e.lru
  nodup : e1.freePages.Nodup
  free : ∀ q, q ∈ e1.freePages ↔ q ∈ e.freePages ∧ q ≠ p
  others : ∀ q, q ≠ p → e1.searchIndex q = e.searchIndex q
  bare : (e1.searchIndex p).freeBlockIndexes = Page.slots cfg
  owned : Owned cfg e1

lemma Owned.evictPage (hO : Owned cfg e) (d : Disk) (p : ℕ) :
    Owned cfg (e.evictPage cfg d p).1 := by
  have hlabel : ∀ q, ((e.evictPage cfg d p).1.searchIndex q).pageOwnerId
      = (e.searchIndex q).pageOwnerId := by
    intro q
    by_cases hq : q = p
    · subst hq
      simp only [Engine.evictPage, searchIndex_setPage_self, Page.reset]
      split_ifs
      · exact syncData_fst cfg _ d
      · rfl
    · simp [Engine.evictPage, searchIndex_setPage_ne _ _ hq]
  have hsub : ∀ o s, (e.evictPage cfg d p).1.ownerPagesMapping.lookup o = some s →
      ∃ s0, e.ownerPagesMapping.lookup o = some s0 ∧ s.Sublist s0 := by
    intro o s hs
    simp only [Engine.evictPage, Map.lookup_update] at hs
    split_ifs at hs with ho
    · obtain ⟨s0, hs0, rfl⟩ := Option.map_eq_some_iff.mp hs
      exact ⟨s0, ho ▸ hs0, List.erase_sublist⟩
    · exact ⟨s, hs, .refl _⟩
  refine ⟨fun o s hs => ?_, fun o s hs q hq => ?_, ?_, hO.rooms⟩
  · obtain ⟨s0, hs0, hle⟩ := hsub o s hs
    exact (hO.nodup o s0 hs0).sublist hle
  · obtain ⟨s0, hs0, hle⟩ := hsub o s hs
    rw [hlabel]
    exact hO.label o s0 hs0 q (hle.subset hq)
  · cases hs : (e.evictPage cfg d p).1.ownerPagesMapping.lookup "none" with
    | none => rfl
    | some s =>
        obtain ⟨s0, hs0, -⟩ := hsub "none" s hs
        rw [hO.noNone] at hs0
        cases hs0

/-- **`_get_next_free_page`** hands out a page, unless the LRU list is empty. -/
lemma Split.getNextFreePage (hS : Split cfg e) (hO : Owned cfg e) (hl : cfg.applyLruEviction = true)
    {d d1 : Disk} {e1 : Engine} {r : Option ℕ} (h : e.getNextFreePage cfg d o = some (e1, d1, r)) :
    ∃ p, r = some p ∧ Handed cfg e p e1 := by
  obtain ⟨room, hroom, h⟩ := Option.bind_eq_some_iff.mp h
  -- no page of the owner has room
  obtain rfl : room = none := by
    rw [pageWithRoom] at hroom
    split_ifs at hroom
    · obtain ⟨v, hv, rfl⟩ := Option.map_eq_some_iff.mp hroom
      rw [hO.rooms o v hv]
      rfl
    · exact (Option.some.inj hroom).symm
  dsimp only at h
  cases hlast : e.freePages.getLast? with
  | some p =>
      simp only [hlast, Option.some.injEq, Prod.mk.injEq] at h
      obtain ⟨rfl, -, rfl⟩ := h
      -- the last free page is handed out
      have hsplit : e.freePages = e.freePages.dropLast ++ [p] :=
        (List.dropLast_append_getLast? p hlast).symm
      have hmem : p ∈ e.freePages := List.mem_of_getLast? hlast
      have hnd := hS.nodup
      rw [hsplit, List.nodup_append] at hnd
      refine ⟨p, rfl, ((hS.free p).mp hmem).1, rfl, hnd.1, fun q => ?_, fun _ _ => rfl,
        hS.bare p hmem, hO.nodup, hO.label, hO.noNone, hO.rooms⟩
      show q ∈ e.freePages.dropLast ↔ _
      rw [hsplit, List.dropLast_concat, List.mem_append, List.mem_singleton]
      exact ⟨fun hq => ⟨.inl hq, hnd.2.2 q hq p (List.mem_singleton_self p)⟩,
        fun hq => hq.1.resolve_right hq.2⟩
  | none =>
      simp only [hlast, hl, if_true] at h
      -- the page at the end of the list is evicted, and nothing else is free
      have hnil : e.freePages = [] := List.getLast?_eq_none_iff.mp hlast
      cases hv : e.lruMainVector.getLast? with
      | none =>
          rw [hv] at h
          cases h
      | some x =>
          obtain ⟨n, p⟩ := x
          simp only [hv, Option.some.injEq, Prod.mk.injEq] at h
          obtain ⟨rfl, -, rfl⟩ := h
          have hbusy := hS.lruOk.live (n, p) (List.mem_of_getLast? hv)
          have hfree : (e.evictPage cfg d p).1.freePages = e.freePages := rfl
          refine ⟨p, rfl, hbusy.1, rfl, hS.nodup, fun q => ?_, fun q hq => ?_, ?_, hO.evictPage d p⟩
          · rw [hfree, hnil]
            simp
          · simp [Engine.evictPage, searchIndex_setPage_ne _ _ hq]
          · simp [Engine.evictPage, Page.reset]

/-- A page handed out is filled. -/
lemma Split.storeBlock (hS : Split cfg e) (hl : cfg.applyLruEviction = true)
    (h1 : OneBlock cfg) {e1 : Engine} (hp : Handed cfg e p e1) (ho : o ≠ "none") {blk : ℤ}
    {b : BlockData} {op : AllocateOperationType} (h : e1.storeBlock cfg o blk p b op = some e') :
    Split cfg e' ∧ Owned cfg e' := by
  simp only [Engine.storeBlock, hl, if_true] at h
  generalize hpg : (if op = .opWrite then _ else _ : Page) = pg at h
  -- the page is full, and still has its last label
  have hfull : pg.hasFreeSpace = false := by
    have hslots : ((e1.searchIndex p).getAllocateFreeOffset cfg blk).1.freeBlockIndexes = [] := by
      rw [Page.getAllocateFreeOffset, hp.bare, h1.slots_eq]
      rfl
    rw [← hpg, Page.hasFreeSpace]
    split_ifs
    · rw [Page.setPageAsDirty, Page.freeBlockIndexes_updateBlockData, hslots]
      rfl
    · rw [Page.freeBlockIndexes_updateBlockData, hslots]
      rfl
  have hlabel : pg.pageOwnerId = (e1.searchIndex p).pageOwnerId := by
    have halloc : ((e1.searchIndex p).getAllocateFreeOffset cfg blk).1.pageOwnerId
        = (e1.searchIndex p).pageOwnerId := by
      rw [Page.getAllocateFreeOffset]
      split
      · rfl
      · rfl
    rw [← hpg]
    split_ifs
    · rw [Page.setPageAsDirty, Page.pageOwnerId_updateBlockData, halloc]
    · rw [Page.pageOwnerId_updateBlockData, halloc]
  have hsame := sameStore_applyLruOnWrite cfg (e1.setPage p pg) p
  -- it enters the maps of the new owner
  obtain ⟨hfree, hpages, hrooms⟩ := pages_updateOwnerPages hp.lt h
  obtain ⟨hlru, hmap⟩ := owners_updateOwnerPages hp.lt h
  have hpage : ((e1.setPage p pg).applyLruOnWrite cfg p).searchIndex p = pg := by
    rw [hsame.searchIndex, searchIndex_setPage_self]
  have hoth : ∀ q, q ≠ p → e'.searchIndex q = e1.searchIndex q := by
    intro q hq
    rw [hpages, Function.update_of_ne hq, hsame.searchIndex, searchIndex_setPage_ne _ _ hq]
  have hown : (e'.searchIndex p).pageOwnerId = o := by
    rw [hpages, Function.update_self]
    rfl
  have hfree' : e'.freePages = e1.freePages := hfree.trans hsame.freePages
  refine ⟨hS.store hl hp.lt ho (hfree' ▸ hp.nodup) (fun q => hfree' ▸ hp.free q)
    (fun q hq => (hoth q hq).trans (hp.others q hq)) hown ?_,
      hp.owned.store ho hp.lt hoth hown ?_ ?_⟩
  · rw [hlru]
    exact lru_applyLruOnWrite_congr (show (e1.setPage p pg).lru = e.lru from hp.lru) p
  · intro o' s' hs'
    rw [hpage, hlabel] at hmap
    obtain ⟨s, hs, heq⟩ := hmap o' s' hs'
    rw [hsame.ownerPagesMapping] at hs
    exact ⟨s, hs, heq⟩
  · intro o' v hv
    rw [hpage, hfull] at hrooms
    obtain ⟨v0, hv0, heq⟩ := hrooms o' v hv
    rw [hsame.ownerFreePagesMapping] at hv0
    exact ⟨v0, hv0, heq⟩

/-- **One turn of the loop of `allocate_blocks`**. -/
theorem Split.allocateBlock (hS : Split cfg e) (hO : Owned cfg e) (hl : cfg.applyLruEviction = true)
    (h1 : OneBlock cfg) (ho : o ≠ "none") {d d' : Disk} {blk : ℤ} {b : BlockData}
    {op : AllocateOperationType} {r : Option ℕ}
    (h : e.allocateBlock cfg d o blk b op = some (e', d', r)) : Split cfg e' ∧ Owned cfg e' := by
  have hfree : e.allocateFree cfg d o blk b op = some (e', d', r) → Split cfg e' ∧
      Owned cfg e' := by
    intro h
    obtain ⟨⟨e1, d1, next⟩, hnext, h⟩ := Option.bind_eq_some_iff.mp h
    obtain ⟨p, rfl, hp⟩ := hS.getNextFreePage hO hl hnext
    dsimp only at h
    rw [if_pos hp.lt] at h
    obtain ⟨e2, hstore, h⟩ := Option.bind_eq_some_iff.mp h
    cases h
    exact hS.storeBlock hl h1 hp ho hstore
  rw [Engine.allocateBlock] at h
  split at h
  · rename_i p hp
    split_ifs at h
    · -- an update leaves the lists and the labels
      obtain ⟨e1, hup, h⟩ := Option.map_eq_some_iff.mp h
      cases h
      rw [updateBlock] at hup
      obtain ⟨m, -, hup⟩ := Option.bind_eq_some_iff.mp hup
      obtain ⟨ent, -, hup⟩ := Option.bind_eq_some_iff.mp hup
      cases hup
      have hsame : SameSplit e
          (e.setPage p ((e.searchIndex p).updateBlockData blk b.data b.len b.offStart).1) :=
        .setPage Page.pageOwnerId_updateBlockData fun _ => Page.freeBlockIndexes_updateBlockData
      exact ⟨(hsame.ordered _).split hS, (hsame.ordered _).owned hO⟩
    · exact hfree h
  · exact hfree h

/-! ### Reading -/

lemma isBlockCached_busy (hS : Split cfg e) (ho : o ≠ "none") {blk : ℤ}
    (h : e.isBlockCached cfg o (some p) blk = true) : Busy cfg e p := by
  rw [isBlockCached, Option.bind_some, getPagePtr] at h
  split_ifs at h with hlt
  · rw [Bool.and_eq_true, Page.isPageOwner, decide_eq_true_eq] at h
    exact hS.busy_of_label hlt (h.1 ▸ ho)

lemma SameStore.owned (h : SameStore e e') (hO : Owned cfg e) : Owned cfg e' :=
  ⟨h.ownerPagesMapping ▸ hO.nodup, h.ownerPagesMapping ▸ h.searchIndex ▸ hO.label,
    h.ownerPagesMapping ▸ hO.noNone, h.ownerFreePagesMapping ▸ hO.rooms⟩

/-- **The loop of `get_blocks`**. -/
theorem Split.getLoop (hl : cfg.applyLruEviction = true) (ho : o ≠ "none")
    (l : List (ℤ × (Option ℕ × Mem × ℤ))) (acc : Map ℤ Bool × Map ℤ Mem) (hS : Split cfg e)
    (hO : Owned cfg e) :
    Split cfg (Engine.getLoop cfg o l e acc).1 ∧ Owned cfg (Engine.getLoop cfg o l e acc).1 := by
  induction l generalizing e acc with
  | nil => exact ⟨hS, hO⟩
  | cons x l ih =>
      obtain ⟨blk, pageId, data, max⟩ := x
      cases pageId with
      | none => exact ih _ hS hO
      | some p =>
          rw [Engine.getLoop]
          split_ifs with hc
          · exact ih _ (hS.visit hl (isBlockCached_busy hS ho hc))
              ((sameStore_applyLruOnRead e p).owned hO)
          · exact ih _ hS hO

/-! ### Releasing pages -/

/-- The other pages stay in use when a page is released. -/
lemma Busy.releasePage {q : ℕ} (hq : Busy cfg e q) (hne : q ≠ p) :
    Busy cfg (e.releasePage cfg p) q := by
  have hfree : (e.releasePage cfg p).freePages = e.freePages ++ [p] :=
    (sameStore_releasePage cfg e p).freePages
  refine ⟨hq.1, ?_⟩
  rw [hfree, List.mem_append, List.mem_singleton, not_or]
  exact ⟨hq.2, hne⟩

/-- The pages of a list, each of them in use, go back to the free list. -/
lemma Split.releaseAll (hl : cfg.applyLruEviction = true) (l : List ℕ) (hnd : l.Nodup)
    (hS : Split cfg e) (hbusy : ∀ p ∈ l, Busy cfg e p) :
    Split cfg (l.foldl (Engine.releasePage cfg) e) := by
  induction l generalizing e with
  | nil => exact hS
  | cons p l ih =>
      obtain ⟨hp, hnd⟩ := List.nodup_cons.mp hnd
      refine ih hnd (hS.releasePage hl (hbusy p List.mem_cons_self)) fun q hq => ?_
      exact (hbusy q (List.mem_cons_of_mem _ hq)).releasePage fun heq => hp (heq ▸ hq)

/-- The pages of an owner are in use. -/
lemma Owned.busy (hS : Split cfg e) (hO : Owned cfg e) {s : List ℕ}
    (hs : e.ownerPagesMapping.lookup o = some s) : ∀ p ∈ s, Busy cfg e p := by
  intro p hp
  obtain ⟨hlt, hlabel⟩ := hO.label o s hs p hp
  refine hS.busy_of_label hlt fun hnone => ?_
  rw [← hlabel, hnone, hO.noNone] at hs
  cases hs

/-- **`remove_cached_blocks`**. -/
theorem Split.removeCachedBlocks (hS : Split cfg e) (hO : Owned cfg e)
    (hl : cfg.applyLruEviction = true) (o : String) : Split cfg (e.removeCachedBlocks cfg o) ∧
    Owned cfg (e.removeCachedBlocks cfg o) := by
  have hS0 : Split cfg { e with ownerFreePagesMapping := e.ownerFreePagesMapping.erase o } :=
    ⟨hS.nodup, hS.free, hS.bare, hS.lruOk.congr rfl, hS.listed⟩
  have hrooms : ∀ o' v, (e.ownerFreePagesMapping.erase o).lookup o' = some v → v = [] := by
    intro o' v hv
    rw [Map.lookup_erase'] at hv
    split_ifs at hv
    exact hO.rooms o' v hv
  rw [Engine.removeCachedBlocks]
  cases hs : e.ownerPagesMapping.lookup o with
  | none => exact ⟨hS0, hO.nodup, hO.label, hO.noNone, hrooms⟩
  | some s =>
      -- the pages of the owner are released one after the other
      have hperm := cfg.unordered_perm s
      have hnd : (cfg.unordered s).Nodup := hperm.nodup_iff.mpr (hO.nodup o s hs)
      have hS1 := hS0.releaseAll hl (cfg.unordered s) hnd fun p hp =>
        hO.busy hS hs p (hperm.mem_iff.mp hp)
      obtain ⟨hpages, -, howners, -, hroom⟩ := foldl_releasePage cfg (cfg.unordered s) hnd
        { e with ownerFreePagesMapping := e.ownerFreePagesMapping.erase o }
      -- the other owners keep theirs, and none of them is among those released
      have hmap : ∀ o' s', (((cfg.unordered s).foldl (Engine.releasePage cfg)
          { e with ownerFreePagesMapping := e.ownerFreePagesMapping.erase o
            }).ownerPagesMapping.erase o).lookup o' = some s' →
          o' ≠ o ∧ e.ownerPagesMapping.lookup o' = some s' := by
        intro o' s' hs'
        rw [howners, Map.lookup_erase'] at hs'
        split_ifs at hs' with ho'
        exact ⟨ho', hs'⟩
      refine ⟨⟨hS1.nodup, hS1.free, hS1.bare, hS1.lruOk.congr rfl, hS1.listed⟩,
        fun o' s' hs' => hO.nodup o' s' (hmap o' s' hs').2, fun o' s' hs' q hq => ?_, ?_,
        fun o' v hv => hrooms o' v ((congrArg (AList.lookup o') hroom).symm.trans hv)⟩
      · obtain ⟨ho', hs'⟩ := hmap o' s' hs'
        obtain ⟨hlt, hlabel⟩ := hO.label o' s' hs' q hq
        have hout : q ∉ cfg.unordered s := fun hin =>
          ho' (hlabel.symm.trans (hO.label o s hs q (hperm.mem_iff.mp hin)).2)
        refine ⟨hlt, ?_⟩
        show (((cfg.unordered s).foldl (Engine.releasePage cfg) _).searchIndex q).pageOwnerId = o'
        rw [hpages, if_neg hout]
        exact hlabel
      · cases hnone : (((cfg.unordered s).foldl (Engine.releasePage cfg)
          { e with ownerFreePagesMapping := e.ownerFreePagesMapping.erase o
            }).ownerPagesMapping.erase o).lookup "none" with
        | none => rfl
        | some s' =>
            have hkept := (hmap "none" s' hnone).2
            rw [hO.noNone] at hkept
            cases hkept

/-- A page that no owner is said to have goes back to the free list. -/
lemma Owned.releasePage (hO : Owned cfg e)
    (hp : ∀ o s, e.ownerPagesMapping.lookup o = some s → p ∉ s) :
    Owned cfg (e.releasePage cfg p) := by
  have hs := sameStore_releasePage cfg e p
  have howners : (e.releasePage cfg p).ownerPagesMapping = e.ownerPagesMapping :=
    hs.ownerPagesMapping
  have hrooms : (e.releasePage cfg p).ownerFreePagesMapping = e.ownerFreePagesMapping :=
    hs.ownerFreePagesMapping
  refine ⟨howners ▸ hO.nodup, fun o s hs q hq => ?_, howners ▸ hO.noNone, hrooms ▸ hO.rooms⟩
  rw [howners] at hs
  have hne : q ≠ p := fun heq => hp o s hs (heq ▸ hq)
  rw [searchIndex_releasePage, Function.update_of_ne hne]
  exact hO.label o s hs q hq

/-- **One turn of the loop of `truncate_cached_blocks`**: the page may hold another block by now. -/
theorem Split.truncateBlock (hS : Split cfg e) (hO : Owned cfg e) (hl : cfg.applyLruEviction = true)
    (ho : o ≠ "none") {fromBlockId index : ℤ} {blk : ℤ × Option ℕ}
    (h : e.truncateBlock cfg o fromBlockId index blk = some e') : Split cfg e' ∧ Owned cfg e' := by
  obtain ⟨p, -, h⟩ := Option.bind_eq_some_iff.mp h
  obtain ⟨page, hpage, h⟩ := Option.bind_eq_some_iff.mp h
  rw [getPagePtr] at hpage
  split_ifs at hpage with hlt
  cases hpage
  split_ifs at h with howner hfirst hc
  · cases h
    -- the block is cut in its page
    have hsame : SameSplit e
        (e.setPage p (((e.searchIndex p).makeBlockReadableTo fromBlockId (index - 1)).writeNullFrom
        cfg fromBlockId index)) := .setPage rfl fun _ => rfl
    exact ⟨hsame.split hS, hsame.owned hO⟩
  · cases h
    exact ⟨hS, hO⟩
  · rw [Page.isPageOwner, decide_eq_true_eq] at howner
    -- the block leaves its page
    have hbusy := hS.busy_of_label hlt (howner ▸ ho)
    obtain ⟨s, hs, h⟩ := Option.bind_eq_some_iff.mp h
    obtain ⟨m, -, h⟩ := Option.bind_eq_some_iff.mp h
    have hlabel : ((e.searchIndex p).removeBlock cfg blk.1).pageOwnerId
        = (e.searchIndex p).pageOwnerId := by
      rw [Page.removeBlock]
      dsimp only
      split_ifs
      · rfl
      · rfl
      · rfl
      · rfl
    have hsame : SameSplit e (e.setPage p ((e.searchIndex p).removeBlock cfg blk.1)) :=
      .setPage hlabel fun hin => absurd hin hbusy.2
    have hS1 := hsame.split hS
    have hO1 := hsame.owned hO
    -- the owner loses the page, and no other owner has it
    have hmap : ∀ o' s', (e.ownerPagesMapping.set o (s.erase p)).lookup o' = some s' →
        p ∉ s' ∧ ∃ s0, e.ownerPagesMapping.lookup o' = some s0 ∧ s'.Sublist s0 := by
      intro o' s' hs'
      rw [Map.lookup_set] at hs'
      split_ifs at hs' with ho'
      · obtain rfl := Option.some.inj hs'
        exact ⟨(hO.nodup o s hs).not_mem_erase, s, ho' ▸ hs, List.erase_sublist⟩
      · exact ⟨fun hin => ho' ((hO.label o' s' hs' p hin).2.symm.trans howner), s', hs', .refl _⟩
    -- its ordered map has no part in the split
    generalize hm' : e.ownerOrderedPagesMapping.set o (m.erase blk.1) = m' at h
    have hS2 : Split cfg { e.setPage p ((e.searchIndex p).removeBlock cfg blk.1) with
        ownerPagesMapping := e.ownerPagesMapping.set o (s.erase p),
          ownerOrderedPagesMapping := m' } :=
      ⟨hS1.nodup, hS1.free, hS1.bare, hS1.lruOk.congr rfl, hS1.listed⟩
    have hO2 : Owned cfg { e.setPage p ((e.searchIndex p).removeBlock cfg blk.1) with
        ownerPagesMapping := e.ownerPagesMapping.set o (s.erase p),
        ownerOrderedPagesMapping := m' } := by
      refine ⟨fun o' s' hs' => ?_, fun o' s' hs' q hq => ?_, ?_, hO.rooms⟩
      · obtain ⟨-, s0, hs0, hle⟩ := hmap o' s' hs'
        exact (hO.nodup o' s0 hs0).sublist hle
      · obtain ⟨-, s0, hs0, hle⟩ := hmap o' s' hs'
        exact hO1.label o' s0 hs0 q (hle.subset hq)
      · show (e.ownerPagesMapping.set o (s.erase p)).lookup "none" = none
        rw [Map.lookup_set, if_neg ho.symm]
        exact hO.noNone
    split_ifs at h
    · cases h
      exact ⟨hS2, hO2⟩
    · cases h
      exact ⟨hS2.releasePage hl hbusy, hO2.releasePage fun o' s' hs' => (hmap o' s' hs').1⟩
  · cases h
    exact ⟨hS, hO⟩

end Engine

end LazyFS
