import LazyFS.Rep.Store

/-!
One turn of the loop of `allocate_blocks`, on a page table.

* `Engine.Updated`: a resident block is overwritten in its page.
* `Engine.Allocated`: the four ways in which a turn ends: the block is updated in the page the
  caller names, it enters a page of the free list, it enters an evicted page, or there is no
  page for it.
* `Rep.allocateBlock` is the inversion of a turn, `Rep.allocateBlock_isSome` says when no
  exception is thrown, `Allocated.exact` when the ordered entries stay exact.
-/

namespace LazyFS

namespace Engine

variable {cfg : Config} {e e' : Engine} {d d' : Disk} {tbl tbl' : PageTable}
  {cid : String} {blk : ℤ}
  {b : BlockData} {op : AllocateOperationType} {page : Option ℕ}

/-! ### Updates in place -/

/-- The engine after the block `(cid, blk)` of the page `p` is overwritten. -/
structure Updated (cfg : Config) (e : Engine) (tbl : PageTable) (p : ℕ) (cid : String) (blk : ℤ)
    (b : BlockData) (e' : Engine) : Prop where
  rep : Rep cfg e' tbl none
  searchIndex : e'.searchIndex = Function.update e.searchIndex p
    ((e.searchIndex p).updateBlockData blk b.data b.len b.offStart).1
  freePages : e'.freePages = e.freePages
  lru : e'.lru = e.lru
  entry : ∀ o b', e'.entry o b' = (e.entry o b').map fun ent =>
    if o = cid ∧ b' = blk then { ent with isSynced := false } else ent

/-- A resident block with an ordered entry is updated. -/
lemma Rep.updateBlock (hR : Rep cfg e tbl none) {p : ℕ}
    (hp : tbl p = some (cid, blk)) {ent : OrderedEntry} (he : e.entry cid blk = some ent) :
    ∃ e', e.updateBlock cid blk p b = some e' ∧ Updated cfg e tbl p cid blk b e' := by
  have hu := hR.usedPage hp
  obtain ⟨m, hm, hent⟩ := Option.bind_eq_some_iff.mp he
  have hR1 := hR.setPage hp (hu.updateBlockData' b.data b.len b.offStart)
  set pg := ((e.searchIndex p).updateBlockData blk b.data b.len b.offStart).1
  have heq : e.updateBlock cid blk p b = some { (e.setPage p pg) with
      ownerOrderedPagesMapping :=
        e.ownerOrderedPagesMapping.set cid (m.set blk { ent with isSynced := false }) } := by
    simp only [Engine.updateBlock, Option.bind_eq_bind, ownerOrderedPagesMapping_setPage, hm,
      hent, Option.bind_some, pg]
  refine ⟨_, heq, hR1.congr rfl rfl rfl (fun o => ?_) rfl, rfl, rfl, rfl, fun o b' => ?_⟩
  · rw [Map.lookup_set, ownerOrderedPagesMapping_setPage]
    split_ifs with ho
    · rw [ho, hm]
      rfl
    · rfl
  · simp only [entry, Map.lookup_set]
    by_cases ho : o = cid
    · subst ho
      rw [if_pos rfl, hm, Option.bind_some, Option.bind_some, Map.lookup_set]
      by_cases hb : b' = blk
      · subst hb
        simp [hent]
      · simp [hb]
    · simp [ho]

/-- Without an ordered entry the update throws. -/
lemma updateBlock_eq_none {p : ℕ} (he : e.entry cid blk = none) :
    e.updateBlock cid blk p b = none := by
  simp only [Engine.updateBlock, Option.bind_eq_bind, ownerOrderedPagesMapping_setPage]
  cases hm : e.ownerOrderedPagesMapping.lookup cid with
  | none => rw [Option.bind_none]
  | some m =>
      have hent : m.lookup blk = none := by rwa [entry, hm, Option.bind_some] at he
      rw [Option.bind_some, hent, Option.bind_none]

lemma Updated.exact {p : ℕ} (hU : Updated cfg e tbl p cid blk b e') (hX : Exact cfg e tbl) :
    Exact cfg e' tbl := by
  refine ⟨fun o b' ent he => ?_, fun q o b' hq => ?_⟩
  · rw [hU.entry] at he
    obtain ⟨ent', he', rfl⟩ := Option.map_eq_some_iff.mp he
    obtain ⟨h1, h2⟩ := hX.of_entry o b' ent' he'
    split_ifs
    · exact ⟨h1, h2⟩
    · exact ⟨h1, h2⟩
  · obtain ⟨ent, he, hid⟩ := hX.entry_of q o b' hq
    refine ⟨_, by rw [hU.entry, he]; rfl, ?_⟩
    split_ifs
    · exact hid
    · exact hid

/-! ### One turn -/

/-- The ends of one turn: the engine, the disk, the table and the page reported for the block. -/
inductive Allocated (cfg : Config) (e : Engine) (d : Disk) (tbl : PageTable)
    (cid : String) (blk : ℤ) (b : BlockData) : Engine → Disk → PageTable → Option ℕ → Prop where
  | update {e' : Engine} (p : ℕ) : b.pageId = some p → tbl p = some (cid, blk) →
      (e.entry cid blk).isSome → Updated cfg e tbl p cid blk b e' →
      Allocated cfg e d tbl cid blk b e' d tbl (some p)
  | fresh {e' : Engine} (p : ℕ) : (∀ q, b.pageId = some q → tbl q ≠ some (cid, blk)) →
      e.freePages.getLast? = some p → FreePage cfg (e.searchIndex p) →
      Rep cfg { e with freePages := e.freePages.dropLast } tbl (some p) →
      Stored cfg { e with freePages := e.freePages.dropLast } tbl p cid blk b e' →
      Allocated cfg e d tbl cid blk b e' d (Function.update tbl p (some (cid, blk))) (some p)
  | evict {e' : Engine} (p : ℕ) (o : String) (b' : ℤ) :
      (∀ q, b.pageId = some q → tbl q ≠ some (cid, blk)) → e.freePages = [] →
      cfg.applyLruEviction = true → (∃ n, e.lruMainVector.getLast? = some (n, p)) →
      tbl p = some (o, b') →
      Stored cfg (e.evictPage cfg d p).1 (Function.update tbl p none) p cid blk b e' →
      Allocated cfg e d tbl cid blk b e' (e.evictPage cfg d p).2
        (Function.update (Function.update tbl p none) p (some (cid, blk))) (some p)
  | full : (∀ q, b.pageId = some q → tbl q ≠ some (cid, blk)) → e.freePages = [] →
      cfg.applyLruEviction = false → Allocated cfg e d tbl cid blk b e d tbl none

/-- The turn evicts nothing: eviction is off, a page is free or the block is where the caller
says. -/
def NoEviction (cfg : Config) (e : Engine) (tbl : PageTable) (cid : String) (blk : ℤ)
    (b : BlockData) : Prop :=
  cfg.applyLruEviction = true → e.freePages = [] → ∃ p, b.pageId = some p ∧ tbl p = some (cid, blk)

lemma NoEviction.elim (hno : NoEviction cfg e tbl cid blk b)
    (hb : ∀ q, b.pageId = some q → tbl q ≠ some (cid, blk)) (hnil : e.freePages = [])
    (hl : cfg.applyLruEviction = true) : False := by
  obtain ⟨p, h1, h2⟩ := hno hl hnil
  exact hb p h1 h2

lemma noEviction_of_off (hl : cfg.applyLruEviction = false) : NoEviction cfg e tbl cid blk b :=
  fun h => by rw [hl] at h; cases h

lemma Allocated.rep (hA : Allocated cfg e d tbl cid blk b e' d' tbl' page)
    (hR : Rep cfg e tbl none) : Rep cfg e' tbl' none := by
  cases hA with
  | update p _ _ _ hU => exact hU.rep
  | fresh p _ _ _ _ hS => exact hS.rep
  | evict p o b' _ _ _ _ _ hS => exact hS.rep
  | full => exact hR

/-- The turn when the block is in the page the caller names. -/
lemma Rep.allocateBlock_of_cached (hR : Rep cfg e tbl none) {p : ℕ} (hb : b.pageId = some p)
    (hp : tbl p = some (cid, blk)) :
    e.allocateBlock cfg d cid blk b op
      = (e.updateBlock cid blk p b).map fun e' => (e', d, some p) := by
  have hc : e.isBlockCached cfg cid (some p) blk = true := hR.isBlockCached_iff.mpr ⟨p, rfl, hp⟩
  simp only [Engine.allocateBlock, hb, hc, if_true]

/-- The turn when the block is not in the page the caller names. -/
lemma Rep.allocateBlock_of_not_cached (hR : Rep cfg e tbl none)
    (hb : ∀ q, b.pageId = some q → tbl q ≠ some (cid, blk)) :
    e.allocateBlock cfg d cid blk b op = e.allocateFree cfg d cid blk b op := by
  have hc : e.isBlockCached cfg cid b.pageId blk = false := hR.isBlockCached_eq_false hb
  cases hp : b.pageId with
  | none => simp only [Engine.allocateBlock, hp]
  | some p =>
      rw [hp] at hc
      simp only [Engine.allocateBlock, hp, hc, Bool.false_eq_true, if_false]

/-- A page is handed out and the block is stored in it. -/
lemma allocateFree_of_stored {e1 e2 : Engine} {p : ℕ}
    (hnext : e.getNextFreePage cfg d cid = some (e1, d', some p)) (hlt : p < cfg.cacheNrPages)
    (hs : e1.storeBlock cfg cid blk p b op = some e2) :
    e.allocateFree cfg d cid blk b op = some (e2, d', some p) := by
  simp only [allocateFree, hnext, Option.bind_eq_bind, Option.bind_some, if_pos hlt, hs]

/-- A page is evicted only when there is no other, and then it is one in use. -/
def VictimUsed (cfg : Config) (e : Engine) (tbl : PageTable) (cid : String) (blk : ℤ)
    (b : BlockData) : Prop :=
  (∀ q, b.pageId = some q → tbl q ≠ some (cid, blk)) → e.freePages = [] →
    cfg.applyLruEviction = true → ∀ n p, e.lruMainVector.getLast? = some (n, p) → (tbl p).isSome

/-- **Inversion of one turn.**  Whatever a turn returns is one of the four ends. -/
theorem Rep.allocateBlock (h : OnePage cfg) (hR : Rep cfg e tbl none) (hcid : cid ≠ "none")
    (hlru : VictimUsed cfg e tbl cid blk b)
    (ha : e.allocateBlock cfg d cid blk b op = some (e', d', page)) :
    ∃ tbl', Allocated cfg e d tbl cid blk b e' d' tbl' page := by
  by_cases hb : ∃ p, b.pageId = some p ∧ tbl p = some (cid, blk)
  · -- the block is in its page
    obtain ⟨p, hb, hp⟩ := hb
    rw [hR.allocateBlock_of_cached hb hp] at ha
    obtain ⟨e1, he1, heq⟩ := Option.map_eq_some_iff.mp ha
    obtain ⟨rfl, rfl, rfl⟩ := by simpa using heq
    cases he : e.entry cid blk with
    | none => rw [updateBlock_eq_none he] at he1; cases he1
    | some ent =>
        obtain ⟨e2, he2, hU⟩ := hR.updateBlock (b := b) hp he
        rw [he1, Option.some.injEq] at he2
        exact ⟨tbl, .update p hb hp (by rw [he]; rfl) (he2 ▸ hU)⟩
  · have hb' : ∀ q, b.pageId = some q → tbl q ≠ some (cid, blk) := fun q h1 h2 => hb ⟨q, h1, h2⟩
    rw [hR.allocateBlock_of_not_cached hb'] at ha
    cases hf : e.freePages.getLast? with
    | some p =>
        obtain ⟨hnext, hR1, hfree⟩ := hR.getNextFreePage_free (d := d) (o := cid) hf
        obtain ⟨e1, he1, hS⟩ := hR1.storeBlock h hfree.toBarePage hcid blk b op
        rw [allocateFree_of_stored hnext (hR1.inHand p rfl).1 he1] at ha
        obtain ⟨rfl, rfl, rfl⟩ := by simpa using ha
        exact ⟨_, .fresh p hb' hf hfree hR1 hS⟩
    | none =>
        -- no page is free: eviction, where it is on
        have hnil : e.freePages = [] := List.getLast?_eq_none_iff.mp hf
        cases hl : cfg.applyLruEviction with
        | false =>
            rw [allocateFree, hR.getNextFreePage_full hnil hl] at ha
            obtain ⟨rfl, rfl, rfl⟩ := by simpa using ha
            exact ⟨tbl, .full hb' hnil hl⟩
        | true =>
            cases hv : e.lruMainVector.getLast? with
            | none =>
                rw [allocateFree, hR.getNextFreePage_stuck hnil hl hv] at ha
                cases ha
            | some v =>
                obtain ⟨n, p⟩ := v
                obtain ⟨⟨o, b'⟩, hp⟩ := Option.isSome_iff_exists.mp (hlru hb' hnil hl n p hv)
                have hR1 := hR.evictPage h.oneBlock hp d
                obtain ⟨e1, he1, hS⟩ :=
                  hR1.storeBlock h (searchIndex_evictPage h.oneBlock e d p).1 hcid blk b op
                rw [allocateFree_of_stored (hR.getNextFreePage_evict hnil hl hv)
                  (hR1.inHand p rfl).1 he1] at ha
                obtain ⟨rfl, rfl, rfl⟩ := by simpa using ha
                exact ⟨_, .evict p o b' hb' hnil hl ⟨n, hv⟩ hp hS⟩

/-- A turn does not throw when a block in the page the caller names has its ordered entry, and a
page can be found for any other. -/
theorem Rep.allocateBlock_isSome (h : OnePage cfg) (hR : Rep cfg e tbl none) (hcid : cid ≠ "none")
    (hent : ∀ p, b.pageId = some p → tbl p = some (cid, blk) → (e.entry cid blk).isSome)
    (hlru : VictimUsed cfg e tbl cid blk b)
    (hpage : (∀ q, b.pageId = some q → tbl q ≠ some (cid, blk)) → e.freePages = [] →
      cfg.applyLruEviction = true → e.lruMainVector ≠ []) :
    (e.allocateBlock cfg d cid blk b op).isSome := by
  by_cases hb : ∃ p, b.pageId = some p ∧ tbl p = some (cid, blk)
  · obtain ⟨p, hb, hp⟩ := hb
    obtain ⟨ent, he⟩ := Option.isSome_iff_exists.mp (hent p hb hp)
    obtain ⟨e1, he1, -⟩ := hR.updateBlock (b := b) hp he
    rw [hR.allocateBlock_of_cached hb hp, he1]
    rfl
  · have hb' : ∀ q, b.pageId = some q → tbl q ≠ some (cid, blk) := fun q h1 h2 => hb ⟨q, h1, h2⟩
    rw [hR.allocateBlock_of_not_cached hb']
    cases hf : e.freePages.getLast? with
    | some p =>
        obtain ⟨hnext, hR1, hfree⟩ := hR.getNextFreePage_free (d := d) (o := cid) hf
        obtain ⟨e1, he1, -⟩ := hR1.storeBlock h hfree.toBarePage hcid blk b op
        rw [allocateFree_of_stored hnext (hR1.inHand p rfl).1 he1]
        rfl
    | none =>
        have hnil : e.freePages = [] := List.getLast?_eq_none_iff.mp hf
        cases hl : cfg.applyLruEviction with
        | false => simp [allocateFree, hR.getNextFreePage_full hnil hl]
        | true =>
            cases hv : e.lruMainVector.getLast? with
            | none => exact absurd (List.getLast?_eq_none_iff.mp hv) (hpage hb' hnil hl)
            | some v =>
                obtain ⟨n, p⟩ := v
                obtain ⟨⟨o, b'⟩, hp⟩ := Option.isSome_iff_exists.mp (hlru hb' hnil hl n p hv)
                have hR1 := hR.evictPage h.oneBlock hp d
                obtain ⟨e1, he1, -⟩ :=
                  hR1.storeBlock h (searchIndex_evictPage h.oneBlock e d p).1 hcid blk b op
                rw [allocateFree_of_stored (hR.getNextFreePage_evict hnil hl hv)
                  (hR1.inHand p rfl).1 he1]
                rfl

/-- A turn that evicts nothing does not throw. -/
theorem Rep.allocateBlock_noEviction (h : OnePage cfg) (hR : Rep cfg e tbl none)
    (hX : Exact cfg e tbl) (hcid : cid ≠ "none") (hno : NoEviction cfg e tbl cid blk b) (d : Disk)
    (op : AllocateOperationType) :
    ∃ e' d' page tbl', e.allocateBlock cfg d cid blk b op = some (e', d', page) ∧
      Allocated cfg e d tbl cid blk b e' d' tbl' page := by
  have hlru : VictimUsed cfg e tbl cid blk b := fun hb hnil hl => (hno.elim hb hnil hl).elim
  have hsome : (e.allocateBlock cfg d cid blk b op).isSome :=
    hR.allocateBlock_isSome h hcid (fun p _ hp => by
      obtain ⟨ent, he, -⟩ := hX.entry_of p cid blk hp
      rw [he]
      rfl) hlru fun hb hnil hl => (hno.elim hb hnil hl).elim
  obtain ⟨⟨e', d', page⟩, ha⟩ := Option.isSome_iff_exists.mp hsome
  obtain ⟨tbl', hA⟩ := hR.allocateBlock h hcid hlru ha
  exact ⟨e', d', page, tbl', ha, hA⟩

/-- Without eviction the entries stay exact. -/
lemma Allocated.exact (hA : Allocated cfg e d tbl cid blk b e' d' tbl' page)
    (hR : Rep cfg e tbl none) (hX : Exact cfg e tbl)
    (hknown : ∀ q, tbl q = some (cid, blk) → b.pageId = some q)
    (hno : NoEviction cfg e tbl cid blk b) : Exact cfg e' tbl' := by
  cases hA with
  | update p _ _ _ hU => exact hU.exact hX
  | fresh p hb _ hfree hR1 hS =>
      refine hS.exact hR1 ⟨hX.of_entry, hX.entry_of⟩ (fun q hq => hb q (hknown q hq) hq) ?_
      intro q _ hq
      exact (hR.used q _ _ hq).2.1 hfree.owner
  | evict p o b' hb hnil hl _ _ _ => exact (hno.elim hb hnil hl).elim
  | full => exact hX

end Engine

end LazyFS
