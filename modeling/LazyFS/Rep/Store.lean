import LazyFS.Rep.Table

/-!
A block enters the page in hand.

* `Engine.SameStore`: two engines that differ at most in the LRU list.
* `Rep.dropRealOwner`, `Rep.enterNewOwner`: the two halves of `_update_owner_pages`; the first
  erases an entry of the last owner at the block id that is being stored.
* `Rep.storeBlock`: the block is stored; `Exact.storeBlock`: the entries stay exact when the
  last owner of the page has no other page with that block id.
-/

namespace LazyFS

namespace Engine

variable {cfg : Config} {e e' : Engine} {tbl : PageTable} {hand : Option ℕ}

/-- Two engines that differ at most in the LRU list. -/
structure SameStore (e e' : Engine) : Prop where
  searchIndex : e'.searchIndex = e.searchIndex
  freePages : e'.freePages = e.freePages
  ownerPagesMapping : e'.ownerPagesMapping = e.ownerPagesMapping
  ownerOrderedPagesMapping : e'.ownerOrderedPagesMapping = e.ownerOrderedPagesMapping
  ownerFreePagesMapping : e'.ownerFreePagesMapping = e.ownerFreePagesMapping

namespace SameStore

lemma refl (e : Engine) : SameStore e e := ⟨rfl, rfl, rfl, rfl, rfl⟩

lemma trans {e'' : Engine} (h : SameStore e e') (h' : SameStore e' e'') : SameStore e e'' :=
  ⟨h'.1.trans h.1, h'.2.trans h.2, h'.3.trans h.3, h'.4.trans h.4, h'.5.trans h.5⟩

lemma rep (h : SameStore e e') (hR : Rep cfg e tbl hand) : Rep cfg e' tbl hand :=
  hR.congr h.searchIndex h.freePages h.ownerPagesMapping
    (fun o => by rw [h.ownerOrderedPagesMapping]) h.ownerFreePagesMapping

lemma entry (h : SameStore e e') (o : String) (b : ℤ) : e'.entry o b = e.entry o b :=
  entry_congr h.ownerOrderedPagesMapping o b

lemma exact (h : SameStore e e') (hX : Exact cfg e tbl) : Exact cfg e' tbl :=
  ⟨fun o b ent he => hX.of_entry o b ent (h.entry o b ▸ he), fun p o b hp => by
    rw [h.entry o b]
    exact hX.entry_of p o b hp⟩

end SameStore

lemma sameStore_lruErase (e : Engine) (p : ℕ) : SameStore e (e.lruErase p) := by
  rw [lruErase]
  split
  · exact .refl e
  · exact ⟨rfl, rfl, rfl, rfl, rfl⟩

lemma sameStore_lruPushFront (e : Engine) (p : ℕ) : SameStore e (e.lruPushFront p) :=
  ⟨rfl, rfl, rfl, rfl, rfl⟩

lemma sameStore_applyLruOnRead (e : Engine) (p : ℕ) : SameStore e (e.applyLruOnRead p) :=
  (sameStore_lruErase e p).trans (sameStore_lruPushFront _ p)

lemma sameStore_applyLruOnWrite (cfg : Config) (e : Engine) (p : ℕ) :
    SameStore e (e.applyLruOnWrite cfg p) := by
  rw [applyLruOnWrite]
  split
  · dsimp only
    split_ifs
    · split
      · exact sameStore_lruPushFront e p
      · exact ⟨rfl, rfl, rfl, rfl, rfl⟩
    · exact sameStore_lruPushFront e p
  · exact sameStore_applyLruOnRead e p

/-! ### The two halves of `_update_owner_pages` -/

/-- An owner that has no page is forgotten. -/
lemma Rep.forgetOwner {hand : Option ℕ} (hR : Rep cfg e tbl hand) {o1 : String}
    (hno : ∀ q b, tbl q ≠ some (o1, b)) :
    Rep cfg { e with
      ownerPagesMapping := e.ownerPagesMapping.erase o1
      ownerFreePagesMapping := e.ownerFreePagesMapping.erase o1
      ownerOrderedPagesMapping := e.ownerOrderedPagesMapping.erase o1 } tbl hand := by
  refine ⟨hR.used, hR.free, hR.inHand, hR.mem_free, hR.nodup, fun o s' hs' => ?_,
    fun q o b hq => ?_, ?_, fun o => ?_, fun o => ?_⟩
  · simp only [Map.lookup_erase'] at hs'
    split_ifs at hs' with ho
    exact hR.owned o s' hs'
  · have ho : o ≠ o1 := fun ho => hno q b (ho ▸ hq)
    simp only [Map.lookup_erase', if_neg ho]
    exact hR.known q o b hq
  · simp only [Map.lookup_erase', hR.no_none, ite_self]
  · simp only [Map.lookup_erase']
    split_ifs
    · rfl
    · exact hR.ordered_isSome o
  · simp only [Map.lookup_erase']
    by_cases ho : o = o1
    · simp [ho]
    · simp only [if_neg ho]
      exact hR.rooms o

/-- An owner that keeps its pages loses the entry of a block. -/
lemma Rep.eraseEntry {hand : Option ℕ} (hR : Rep cfg e tbl hand) {o1 : String} {s : List ℕ}
    (hs : e.ownerPagesMapping.lookup o1 = some s) (m : Map ℤ OrderedEntry) :
    Rep cfg { e with
      ownerPagesMapping := e.ownerPagesMapping.set o1 s
      ownerOrderedPagesMapping := e.ownerOrderedPagesMapping.set o1 m } tbl hand := by
  refine ⟨hR.used, hR.free, hR.inHand, hR.mem_free, hR.nodup, fun o s' hs' => ?_,
    fun q o b hq => ?_, ?_, fun o => ?_, fun o => ?_⟩
  · simp only [Map.lookup_set] at hs'
    split_ifs at hs' with ho
    · rw [Option.some.injEq] at hs'
      exact hs' ▸ ho ▸ hR.owned o1 s hs
    · exact hR.owned o s' hs'
  · simp only [Map.lookup_set]
    split_ifs
    · rfl
    · exact hR.known q o b hq
  · have ho : "none" ≠ o1 := fun ho => by rw [← ho, hR.no_none] at hs; cases hs
    simp only [Map.lookup_set, if_neg ho]
    exact hR.no_none
  · simp only [Map.lookup_set]
    split_ifs
    · rfl
    · exact hR.ordered_isSome o
  · have h1 := hR.rooms o
    simp only [Map.lookup_set]
    by_cases ho : o = o1
    · rw [h1, ho, hs]
      simp
    · rw [if_neg ho]
      exact h1

/-- The last owner of the page in hand loses the entry of the block that is being stored; an
owner without a page is forgotten. -/
lemma Rep.dropRealOwner {p : ℕ} (hR : Rep cfg e tbl (some p)) (o1 : String) (blk : ℤ) :
    ∃ e', e.dropRealOwner o1 p blk = some e' ∧ Rep cfg e' tbl (some p) ∧
      e'.searchIndex = e.searchIndex ∧ e'.freePages = e.freePages ∧ e'.lru = e.lru ∧
      ∀ o b, e'.entry o b
        = if o = o1 ∧ (b = blk ∨ e.ownerPagesMapping.lookup o = some []) then none
          else e.entry o b := by
  cases hs : e.ownerPagesMapping.lookup o1 with
  | none =>
      refine ⟨e, by rw [Engine.dropRealOwner, hs], hR, rfl, rfl, rfl, fun o b => ?_⟩
      have hm : e.ownerOrderedPagesMapping.lookup o1 = none := by
        have h1 := hR.ordered_isSome o1
        rw [hs] at h1
        simpa using h1
      split_ifs with hc
      · rw [entry, hc.1, hm, Option.bind_none]
      · rfl
  | some s =>
      obtain ⟨m, hm⟩ := Option.isSome_iff_exists.mp
        ((hR.ordered_isSome o1).trans (by rw [hs]; rfl))
      obtain ⟨-, hmem⟩ := hR.owned o1 s hs
      have hps : p ∉ s := by
        intro hp
        obtain ⟨b, hb⟩ := (hmem p).mp hp
        rw [(hR.inHand p rfl).2] at hb
        cases hb
      have hse : s.erase p = s := List.erase_of_not_mem hps
      by_cases he : s = []
      · -- the last owner has no page left
        have hno : ∀ q b', tbl q ≠ some (o1, b') := by
          intro q b' hq
          have h1 := (hmem q).mpr ⟨b', hq⟩
          rw [he] at h1
          cases h1
        refine ⟨_, ?_, hR.forgetOwner hno, rfl, rfl, rfl, fun o b => ?_⟩
        · simp [Engine.dropRealOwner, hs, hm, he]
        · simp only [entry, Map.lookup_erase']
          by_cases ho : o = o1
          · rw [if_pos ho, if_pos ⟨ho, .inr (by rw [ho, hs, he])⟩, Option.bind_none]
          · rw [if_neg ho, if_neg (fun h => ho h.1)]
      · -- it has others, and loses the entry only
        refine ⟨_, ?_, hR.eraseEntry hs (m.erase blk), rfl, rfl, rfl, fun o b => ?_⟩
        · simp [Engine.dropRealOwner, hs, hm, hse, he]
        · simp only [entry, Map.lookup_set]
          by_cases ho : o = o1
          · subst ho
            rw [if_pos rfl, hm, Option.bind_some, Option.bind_some, Map.lookup_erase']
            refine if_congr ⟨fun h => ⟨rfl, .inl h⟩, ?_⟩ rfl rfl
            rintro ⟨-, h | h⟩
            · exact h
            · rw [hs, Option.some.injEq] at h
              exact absurd h he
          · rw [if_neg ho, if_neg (fun h => ho h.1)]

/-- The maps of the owners after the page in hand is given to `cid`. -/
lemma Rep.entered {p : ℕ} (hR : Rep cfg e tbl (some p)) {cid : String} (hcid : cid ≠ "none")
    {blk : ℤ} (hu : UsedPage cfg cid blk (e.searchIndex p)) (hs : e'.searchIndex = e.searchIndex)
    (hf : e'.freePages = e.freePages) {s : List ℕ} (hnd : s.Nodup)
    (hmem : ∀ q, q ∈ s ↔ q = p ∨ ∃ b, tbl q = some (cid, b))
    (ho : ∀ o, e'.ownerPagesMapping.lookup o
      = if o = cid then some s else e.ownerPagesMapping.lookup o)
    (hm : ∀ o, (e'.ownerOrderedPagesMapping.lookup o).isSome
      = if o = cid then true else (e.ownerOrderedPagesMapping.lookup o).isSome)
    (hr : ∀ o, e'.ownerFreePagesMapping.lookup o
      = if o = cid then some [] else e.ownerFreePagesMapping.lookup o) :
    Rep cfg e' (Function.update tbl p (some (cid, blk))) none := by
  have htbl : ∀ q, q ≠ p → Function.update tbl p (some (cid, blk)) q = tbl q :=
    fun q hq => Function.update_of_ne hq _ _
  have hself : Function.update tbl p (some (cid, blk)) p = some (cid, blk) :=
    Function.update_self _ _ _
  obtain ⟨hlt, hnp⟩ := hR.inHand p rfl
  refine ⟨fun q o b hq => ?_, fun q hq hn _ => ?_, fun q hq => absurd hq (by simp), fun q => ?_,
    hf ▸ hR.nodup, fun o s' hs' => ?_, fun q o b hq => ?_, ?_, fun o => ?_, fun o => ?_⟩
  · -- the page in hand is the one page that becomes used
    rw [hs]
    by_cases hqp : q = p
    · subst hqp
      rw [hself, Option.some.injEq, Prod.mk.injEq] at hq
      obtain ⟨rfl, rfl⟩ := hq
      exact ⟨hlt, hcid, hu⟩
    · rw [htbl q hqp] at hq
      exact hR.used q o b hq
  · have hqp : q ≠ p := fun heq => by rw [heq, hself] at hn; cases hn
    rw [htbl q hqp] at hn
    rw [hs]
    exact hR.free q hq hn fun heq => hqp (Option.some.inj heq).symm
  · rw [hf, hR.mem_free q]
    by_cases hqp : q = p
    · rw [hqp, hself]
      simp
    · have hqp' : ¬ p = q := fun heq => hqp heq.symm
      rw [htbl q hqp]
      simp [hqp']
  · -- the pages of the owners
    rw [ho] at hs'
    split_ifs at hs' with hoc
    · rw [Option.some.injEq] at hs'
      subst hs' hoc
      refine ⟨hnd, fun q => ?_⟩
      rw [hmem q]
      by_cases hqp : q = p
      · simp [hqp]
      · simp [hqp]
    · obtain ⟨h1, h2⟩ := hR.owned o s' hs'
      refine ⟨h1, fun q => ?_⟩
      rw [h2 q]
      by_cases hqp : q = p
      · have hoc' : ¬ cid = o := fun heq => hoc heq.symm
        simp [hqp, hnp, hoc']
      · rw [htbl q hqp]
  · rw [ho]
    split_ifs with hoc
    · rfl
    · by_cases hqp : q = p
      · rw [hqp, hself, Option.some.injEq, Prod.mk.injEq] at hq
        exact absurd hq.1.symm hoc
      · rw [htbl q hqp] at hq
        exact hR.known q o b hq
  · rw [ho, if_neg (fun h => hcid h.symm), hR.no_none]
  · -- the other maps know the same owners
    rw [hm, ho]
    split_ifs
    · rfl
    · exact hR.ordered_isSome o
  · rw [hr, ho]
    split_ifs with hoc hs' hs'
    · rfl
    · exact absurd rfl hs'
    · rw [hR.rooms, if_pos hs']
    · rw [hR.rooms, if_neg hs']

/-- The page in hand enters the maps of its new owner. -/
lemma Rep.enterNewOwner {p : ℕ} (hR : Rep cfg e tbl (some p)) {cid : String} (hcid : cid ≠ "none")
    {blk : ℤ} (hu : UsedPage cfg cid blk (e.searchIndex p)) (offs : ℤ × ℤ) :
    ∃ e', e.enterNewOwner cid p blk offs = some e' ∧
      Rep cfg e' (Function.update tbl p (some (cid, blk))) none ∧
      e'.searchIndex = e.searchIndex ∧ e'.freePages = e.freePages ∧ e'.lru = e.lru ∧
      ∀ o b, e'.entry o b
        = if o = cid ∧ b = blk then some ((e.entry cid blk).getD ⟨p, offs, false⟩)
          else e.entry o b := by
  have hroom : (e.searchIndex p).hasFreeSpace = false := by rw [Page.hasFreeSpace, hu.slots]; rfl
  have hrooms := hR.rooms cid
  cases hs : e.ownerPagesMapping.lookup cid with
  | none =>
      -- the owner is new
      have hm : e.ownerOrderedPagesMapping.lookup cid = none := by
        have h1 := hR.ordered_isSome cid
        rw [hs] at h1
        simpa using h1
      rw [hs] at hrooms
      have hno : ∀ q b, tbl q ≠ some (cid, b) := fun q b hq => by
        have h1 := hR.known q cid b hq
        rw [hs] at h1
        cases h1
      have heq : e.enterNewOwner cid p blk offs = some { e with
          ownerPagesMapping := e.ownerPagesMapping.insertNew cid [p]
          ownerFreePagesMapping := e.ownerFreePagesMapping.insertNew cid []
          ownerOrderedPagesMapping :=
            e.ownerOrderedPagesMapping.insertNew cid (Map.single blk ⟨p, offs, false⟩) } := by
        simp [Engine.enterNewOwner, hs, hroom]
      refine ⟨_, heq, ?_, rfl, rfl, rfl, fun o b => ?_⟩
      · refine hR.entered hcid hu rfl rfl (List.nodup_singleton p) (fun q => ?_) (fun o => ?_)
          (fun o => ?_) (fun o => ?_)
        · simp [hno]
        · simp only [Map.lookup_insertNew, hs, Option.getD_none]
        · simp only [Map.lookup_insertNew]
          split_ifs <;> rfl
        · simp only [Map.lookup_insertNew, hrooms]
          split_ifs <;> rfl
      · simp only [entry, Map.lookup_insertNew, hm]
        by_cases ho : o = cid
        · subst ho
          rw [if_pos rfl, Option.getD_none, Option.bind_some, Map.lookup_single, hm,
            Option.bind_none, Option.bind_none, Option.getD_none]
          simp only [true_and]
        · rw [if_neg ho, if_neg (fun h => ho h.1)]
  | some s =>
      -- the owner has other pages
      obtain ⟨m, hm⟩ := Option.isSome_iff_exists.mp
        ((hR.ordered_isSome cid).trans (by rw [hs]; rfl))
      rw [hs] at hrooms
      obtain ⟨hnd, hmem⟩ := hR.owned cid s hs
      have heq : e.enterNewOwner cid p blk offs = some { e with
          ownerPagesMapping := e.ownerPagesMapping.set cid (s.insert p)
          ownerOrderedPagesMapping :=
            e.ownerOrderedPagesMapping.set cid (m.insertNew blk ⟨p, offs, false⟩) } := by
        simp [Engine.enterNewOwner, hs, hm, hroom]
      refine ⟨_, heq, ?_, rfl, rfl, rfl, fun o b => ?_⟩
      · refine hR.entered hcid hu rfl rfl (s := s.insert p) hnd.insert (fun q => ?_) (fun o => ?_)
          (fun o => ?_) (fun o => ?_)
        · rw [List.mem_insert_iff, hmem q]
        · simp only [Map.lookup_set]
        · simp only [Map.lookup_set]
          split_ifs <;> rfl
        · split_ifs with ho
          · rw [ho, hrooms]
            rfl
          · rfl
      · simp only [entry, Map.lookup_set]
        by_cases ho : o = cid
        · subst ho
          rw [if_pos rfl, Option.bind_some, Map.lookup_insertNew, hm, Option.bind_some,
            Option.bind_some]
          simp only [true_and]
        · rw [if_neg ho, if_neg (fun h => ho h.1)]

/-! ### The whole step -/

/-- The engine whose page in hand `p` has just become the page of `(cid, blk)`. -/
structure Stored (cfg : Config) (e : Engine) (tbl : PageTable) (p : ℕ) (cid : String) (blk : ℤ)
    (b : BlockData) (e' : Engine) : Prop where
  rep : Rep cfg e' (Function.update tbl p (some (cid, blk))) none
  searchIndex : e'.searchIndex = Function.update e.searchIndex p
    (storedPage cfg (e.searchIndex p) cid blk b.data b.len b.offStart)
  freePages : e'.freePages = e.freePages
  lru : e'.lru = if cfg.applyLruEviction then (e.applyLruOnWrite cfg p).lru else e.lru
  entry : ∀ o b', e'.entry o b'
    = if o = cid ∧ b' = blk then some ((e.entry cid blk).getD ⟨p, slot cfg, false⟩)
      else if o = (e.searchIndex p).pageOwnerId ∧ o ≠ cid ∧
          (b' = blk ∨ e.ownerPagesMapping.lookup o = some []) then none
      else e.entry o b'

lemma lru_applyLruOnWrite_congr (h : e'.lru = e.lru) (p : ℕ) :
    (e'.applyLruOnWrite cfg p).lru = (e.applyLruOnWrite cfg p).lru := by
  obtain ⟨l, m, n⟩ := e
  obtain ⟨l', m', n'⟩ := e'
  simp only [lru, Prod.mk.injEq] at h
  obtain ⟨rfl, rfl, rfl⟩ := h
  cases hm : m'.lookup p with
  | none =>
      simp only [applyLruOnWrite, hm, lruPushFront]
      by_cases hc : cfg.cacheNrPages < (m'.set p n').entries.length
      · simp only [hc, if_true]
        cases ((n', p) :: l').getLast? <;> rfl
      · simp only [hc, if_false, Engine.lru]
  | some node => simp only [applyLruOnWrite, hm, lruErase, lruPushFront, Engine.lru]

/-- The page `pg` with the block, still labelled with its last owner, is given to `cid`; no
exception is thrown. -/
lemma Rep.updateOwnerPages {p : ℕ} (hR : Rep cfg e tbl (some p)) {cid : String}
    (hcid : cid ≠ "none") {blk : ℤ} {pg : Page} (hpg : UsedPage cfg cid blk (pg.changeOwner cid))
    (offs : ℤ × ℤ) :
    ∃ e', (if cfg.applyLruEviction then (e.setPage p pg).applyLruOnWrite cfg p
        else e.setPage p pg).updateOwnerPages cfg cid p blk offs = some e' ∧
      Rep cfg e' (Function.update tbl p (some (cid, blk))) none ∧
      e'.searchIndex = Function.update e.searchIndex p (pg.changeOwner cid) ∧
      e'.freePages = e.freePages ∧
      (e'.lru = if cfg.applyLruEviction then (e.applyLruOnWrite cfg p).lru else e.lru) ∧
      ∀ o b', e'.entry o b'
        = if o = cid ∧ b' = blk then some ((e.entry cid blk).getD ⟨p, offs, false⟩)
          else if o = pg.pageOwnerId ∧ o ≠ cid ∧
              (b' = blk ∨ e.ownerPagesMapping.lookup o = some []) then none
          else e.entry o b' := by
  -- the engine in which the page is relabelled
  set e1 := if cfg.applyLruEviction then (e.setPage p pg).applyLruOnWrite cfg p else e.setPage p pg
    with he1
  have hsame : SameStore (e.setPage p pg) e1 := by
    rw [he1]
    split_ifs
    · exact sameStore_applyLruOnWrite cfg _ p
    · exact .refl _
  have hlru : e1.lru = if cfg.applyLruEviction then (e.applyLruOnWrite cfg p).lru else e.lru := by
    rw [he1]
    split_ifs
    · exact lru_applyLruOnWrite_congr (show (e.setPage p pg).lru = e.lru from rfl) p
    · rfl
  have hlt := (hR.inHand p rfl).1
  have hR1 : Rep cfg e1 tbl (some p) := hsame.rep (hR.setHand pg)
  have hpg1 : e1.searchIndex p = pg := by rw [hsame.searchIndex, searchIndex_setPage_self]
  have hentry1 : ∀ o b', e1.entry o b' = e.entry o b' := fun o b' => by
    rw [hsame.entry]
    rfl
  have hptr : e1.getPagePtr cfg p = some pg := by rw [Engine.getPagePtr, if_pos hlt, hpg1]
  rw [Engine.updateOwnerPages, hptr]
  by_cases hoc : pg.pageOwnerId = cid
  · have hchange : pg.changeOwner cid = pg := by rw [Page.changeOwner, ← hoc]
    have hu : UsedPage cfg cid blk (e1.searchIndex p) := by rwa [hpg1, ← hchange]
    obtain ⟨e', he', hR', hs', hf', hl', hn'⟩ := hR1.enterNewOwner hcid hu offs
    refine ⟨e', ?_, hR', ?_, ?_, ?_, fun o b' => ?_⟩
    · simp only [hoc, if_true, Option.bind_eq_bind, Option.bind_some, he']
    · rw [hs', hsame.searchIndex, Engine.setPage, hchange]
    · rw [hf', hsame.freePages]
      rfl
    · rw [hl', hlru]
    · rw [hn', hentry1, hentry1, hoc]
      rw [if_neg (fun h : o = cid ∧ o ≠ cid ∧ _ => h.2.1 h.1)]
  · -- the page was labelled with another owner
    obtain ⟨e2, he2, hR2, hs2, hf2, hl2, hn2⟩ :=
      (hR1.setHand (pg.changeOwner cid)).dropRealOwner pg.pageOwnerId blk
    have hpg2 : e2.searchIndex p = pg.changeOwner cid := by rw [hs2, searchIndex_setPage_self]
    obtain ⟨e', he', hR', hs', hf', hl', hn'⟩ := hR2.enterNewOwner hcid (hpg2.symm ▸ hpg) offs
    have hentry2 : ∀ o b', e2.entry o b'
        = if o = pg.pageOwnerId ∧ (b' = blk ∨ e.ownerPagesMapping.lookup o = some []) then none
          else e.entry o b' := by
      intro o b'
      rw [hn2, ← hentry1, Engine.setPage, hsame.ownerPagesMapping]
      rfl
    refine ⟨e', ?_, hR', ?_, ?_, ?_, fun o b' => ?_⟩
    · simp only [hoc, if_false, Option.bind_eq_bind, he2, Option.bind_some, he']
    · rw [hs', hs2, Engine.setPage, hsame.searchIndex, Engine.setPage]
      simp only [Function.update_idem]
    · rw [hf', hf2, Engine.setPage, hsame.freePages]
      rfl
    · rw [hl', hl2, ← hlru]
      rfl
    · have hcid1 : e2.entry cid blk = e.entry cid blk := by
        rw [hentry2, if_neg (fun h => hoc h.1.symm)]
      rw [hn', hcid1, hentry2]
      by_cases h1 : o = cid ∧ b' = blk
      · rw [if_pos h1, if_pos h1]
      · rw [if_neg h1, if_neg h1]
        by_cases h2 : o = pg.pageOwnerId
        · subst h2
          simp [hoc]
        · rw [if_neg (fun h => h2 h.1), if_neg (fun h => h2 h.1)]

/-- A block is stored in the page in hand; no exception is thrown. -/
lemma Rep.storeBlock (h : OnePage cfg) {p : ℕ} (hR : Rep cfg e tbl (some p))
    (hbare : BarePage cfg (e.searchIndex p)) {cid : String} (hcid : cid ≠ "none") (blk : ℤ)
    (b : BlockData) (op : AllocateOperationType) :
    ∃ e', e.storeBlock cfg cid blk p b op = some e' ∧ Stored cfg e tbl p cid blk b e' := by
  set o1 := (e.searchIndex p).pageOwnerId with ho1
  set pg := storedPage cfg (e.searchIndex p) o1 blk b.data b.len b.offStart with hpg
  have hoffs : ((e.searchIndex p).getAllocateFreeOffset cfg blk).2 = slot cfg := by
    rw [hbare.getAllocateFreeOffset]
  have hpage : (((e.searchIndex p).getAllocateFreeOffset cfg blk).1.updateBlockData blk b.data b.len
      b.offStart).1 = pg := hbare.stored h.two_le
  have hdirty : (if op = AllocateOperationType.opWrite then pg.setPageAsDirty true else pg)
      = pg := by
    split_ifs <;> rfl
  have hu : UsedPage cfg cid blk (pg.changeOwner cid) := usedPage_storedPage
  obtain ⟨e', h1, h2, h3, h4, h5, h6⟩ := hR.updateOwnerPages hcid hu (slot cfg)
  refine ⟨e', ?_, h2, h3, h4, h5, h6⟩
  rw [← h1, Engine.storeBlock]
  simp only [hoffs, hpage, hdirty]

/-- The same for blocks of any size, of which the table is kept. -/
lemma Rep.storeBlock_rep {p : ℕ} (hR : Rep cfg e tbl (some p))
    (hbare : BarePage cfg (e.searchIndex p)) {cid : String} (hcid : cid ≠ "none") (blk : ℤ)
    (b : BlockData) (op : AllocateOperationType) :
    ∃ e', e.storeBlock cfg cid blk p b op = some e' ∧
      Rep cfg e' (Function.update tbl p (some (cid, blk))) none ∧
      (e'.lru = if cfg.applyLruEviction then (e.applyLruOnWrite cfg p).lru else e.lru) := by
  have hpage : UsedPage cfg (e.searchIndex p).pageOwnerId blk
      ((e.searchIndex p).getAllocateFreeOffset cfg blk).1 := by
    rw [hbare.getAllocateFreeOffset]
    exact ⟨rfl, rfl, rfl, by rw [Map.lookup_single_self]; rfl⟩
  set pg := (((e.searchIndex p).getAllocateFreeOffset cfg blk).1.updateBlockData blk b.data b.len
    b.offStart).1 with hpg
  have hu : UsedPage cfg cid blk
      ((if op = .opWrite then pg.setPageAsDirty true else pg).changeOwner cid) := by
    have h1 := hpage.updateBlockData' b.data b.len b.offStart
    split_ifs
    · exact (h1.setPageAsDirty true).changeOwner cid
    · exact h1.changeOwner cid
  obtain ⟨e', h1, h2, -, -, h3, -⟩ := hR.updateOwnerPages hcid hu
    ((e.searchIndex p).getAllocateFreeOffset cfg blk).2
  exact ⟨e', h1, h2, h3⟩

/-- The entries stay exact when the block was not resident and the last owner of the page has no
other page with its id. -/
lemma Stored.exact {p : ℕ} {cid : String} {blk : ℤ} {b : BlockData}
    (hS : Stored cfg e tbl p cid blk b e') (hR : Rep cfg e tbl (some p)) (hX : Exact cfg e tbl)
    (hres : ∀ q, tbl q ≠ some (cid, blk)) (ho : ∀ q, (e.searchIndex p).pageOwnerId ≠ cid →
      tbl q ≠ some ((e.searchIndex p).pageOwnerId, blk)) :
    Exact cfg e' (Function.update tbl p (some (cid, blk))) := by
  have hp : tbl p = none := (hR.inHand p rfl).2
  have hnone : e.entry cid blk = none := by
    cases he : e.entry cid blk with
    | none => rfl
    | some ent => exact absurd (hX.of_entry cid blk ent he).1 (hres _)
  refine ⟨fun o b' ent he => ?_, fun q o b' hq => ?_⟩
  · rw [hS.entry] at he
    split_ifs at he with h1 h2
    · rw [hnone, Option.getD_none, Option.some.injEq] at he
      subst he
      rw [h1.1, h1.2]
      exact ⟨Function.update_self _ _ _, rfl⟩
    · obtain ⟨h3, h4⟩ := hX.of_entry o b' ent he
      have hne : ent.pageId ≠ p := fun heq => by rw [heq, hp] at h3; cases h3
      exact ⟨by rw [Function.update_of_ne hne, h3], h4⟩
  · by_cases hqp : q = p
    · subst hqp
      rw [Function.update_self, Option.some.injEq, Prod.mk.injEq] at hq
      obtain ⟨rfl, rfl⟩ := hq
      exact ⟨⟨q, slot cfg, false⟩, by rw [hS.entry, if_pos ⟨rfl, rfl⟩, hnone]; rfl, rfl⟩
    · rw [Function.update_of_ne hqp] at hq
      obtain ⟨ent, he, hid⟩ := hX.entry_of q o b' hq
      refine ⟨ent, ?_, hid⟩
      rw [hS.entry, if_neg, if_neg, he]
      · rintro ⟨h1, h2, h3 | h3⟩
        · subst h1 h3
          exact ho q h2 hq
        · have h4 := ((hR.owned o [] h3).2 q).mpr ⟨b', hq⟩
          cases h4
      · rintro ⟨rfl, rfl⟩
        exact hres q hq

end Engine

end LazyFS
