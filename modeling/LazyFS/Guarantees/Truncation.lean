import LazyFS.Rep.Invariant

/-!
**A truncation of an item** by its content id.

* `Cache.TruncatedTo`: the blocks that start at or past the new size are gone from the item and from
  the engine, the block that the new size cuts ends before it, and nothing else is touched.
* `Item.Reaches`: no resident block is taken for one past the cut; the block of the cut is an `int`.
* `Cache.Good.truncatedTo_iff_reaches`, `truncatedTo_iff`: `truncate_item` cuts the item so exactly
  then.
* `truncate_far`: block 0 is gone after a cut at block `2 ^ 31`.
-/

namespace LazyFS

open Engine

variable {cfg : Config}

/-- The cache `c'` is `c` with the item `it` of `owner` cut to `n` bytes. -/
structure Cache.TruncatedTo (cfg : Config) (c : Cache) (owner : String) (it : Item) (n : ℕ)
    (c' : Cache) : Prop where
  /-- The blocks at or past `n` have left the item, and the block that `n` cuts ends before it. -/
  infos : ∃ it', c'.contents.lookup owner = some it' ∧
    (∀ b : ℤ, (n : ℤ) ≤ b * cfg.ioBlockSize → it'.data.blocks.lookup b = none) ∧
    (0 < n % cfg.ioBlockSize → it'.data.blocks.lookup ((n / cfg.ioBlockSize : ℕ) : ℤ)
      = (it.data.blocks.lookup ((n / cfg.ioBlockSize : ℕ) : ℤ)).map fun i =>
          i.truncateReadableTo ((n % cfg.ioBlockSize : ℕ) - 1)) ∧
    ∀ b : ℤ, (b + 1) * cfg.ioBlockSize ≤ n → it'.data.blocks.lookup b = it.data.blocks.lookup b
  /-- They have left the engine too, and no other block has. -/
  cached : ∀ o p b, c'.engine.isBlockCached cfg o (some p) b = true ↔
    c.engine.isBlockCached cfg o (some p) b = true ∧ ¬ (o = owner ∧ (n : ℤ) ≤ b * cfg.ioBlockSize)
  entries : ∀ o b, c'.engine.entry o b
    = if o = owner ∧ (n : ℤ) ≤ b * cfg.ioBlockSize then none else c.engine.entry o b
  owned : ∀ o p, (∃ s, c'.engine.ownerPagesMapping.lookup o = some s ∧ p ∈ s) ↔
    ∃ b, c'.engine.isBlockCached cfg o (some p) b = true
  /-- Their pages are free, once each. -/
  returned : c'.engine.freePages.Nodup ∧ ∀ p, p ∈ c'.engine.freePages ↔ p ∈ c.engine.freePages ∨
    ∃ b : ℤ, (n : ℤ) ≤ b * cfg.ioBlockSize ∧ c.engine.isBlockCached cfg owner (some p) b = true
  free : ∀ p ∈ c'.engine.freePages, (c'.engine.searchIndex p).isDirty = false ∧
    (c'.engine.searchIndex p).pageOwnerId = "none" ∧
    (∀ i : ℕ, i < cfg.ioBlockSize → (c'.engine.searchIndex p).data i = 0) ∧
    ∀ b, (c'.engine.searchIndex p).containsBlock b = false
  /-- The page of the block that `n` cuts. -/
  boundary : 0 < n % cfg.ioBlockSize → ∀ p,
    c.engine.isBlockCached cfg owner (some p) ((n / cfg.ioBlockSize : ℕ) : ℤ) = true →
      (c'.engine.searchIndex p).allocatedBlockIds.getReadableTo ((n / cfg.ioBlockSize : ℕ) : ℤ)
        = some (((n % cfg.ioBlockSize : ℕ) : ℤ) - 1) ∧
      (∀ i : ℕ, i < n % cfg.ioBlockSize →
        (c'.engine.searchIndex p).data i = (c.engine.searchIndex p).data i) ∧
      (∀ i : ℕ, n % cfg.ioBlockSize ≤ i → i < cfg.ioBlockSize →
        (c'.engine.searchIndex p).data i = 0) ∧
      (c'.engine.searchIndex p).isDirty = (c.engine.searchIndex p).isDirty
  /-- The pages of the earlier blocks and of the other items. -/
  earlier : ∀ o p b, c.engine.isBlockCached cfg o (some p) b = true →
    (o = owner → (b + 1) * cfg.ioBlockSize ≤ n) → c'.engine.searchIndex p = c.engine.searchIndex p
  others : ∀ o, o ≠ owner → c'.contents.lookup o = c.contents.lookup o
  names : c'.fileInodeMapping = c.fileInodeMapping

/-- Every resident block that starts before `n` is below the block of the cut as an `int`, or that
block is one; before size `0` starts no block. -/
def Item.Reaches (cfg : Config) (it : Item) (n : ℕ) : Prop :=
  ∀ b, (it.data.blocks.lookup b).isSome → b * cfg.ioBlockSize < n →
    n ≠ 0 ∧ (n / cfg.ioBlockSize < 2 ^ 31 ∨ b < toInt (n / cfg.ioBlockSize : ℕ))

/-! ### Blocks and the cut -/

lemma gone_iff {B n : ℕ} (hB : 0 < B) (b : ℤ) :
    Gone ((n / B : ℕ) : ℤ) ((n % B : ℕ) : ℤ) b ↔ (n : ℤ) ≤ b * B := by
  have hB' : (0 : ℤ) < B := by exact_mod_cast hB
  have hn : (n : ℤ) = (n / B : ℕ) * B + (n % B : ℕ) := by
    exact_mod_cast (Nat.div_add_mod' n B).symm
  have hmod : ((n % B : ℕ) : ℤ) < B := by exact_mod_cast Nat.mod_lt n hB
  rw [Gone]
  constructor
  · rintro (hlt | ⟨rfl, h0⟩)
    · calc (n : ℤ) ≤ ((n / B : ℕ) + 1) * B := by rw [add_mul, one_mul]; omega
        _ ≤ b * B := Int.mul_le_mul_of_nonneg_right (by omega) hB'.le
    · rw [hn, h0, add_zero]
  · intro hle
    by_contra hc
    rw [not_or, not_lt] at hc
    rcases hc.1.lt_or_eq with hlt | rfl
    · have : (b + 1) * B ≤ (n / B : ℕ) * B := Int.mul_le_mul_of_nonneg_right (by omega) hB'.le
      rw [add_mul, one_mul] at this
      omega
    · have := hc.2
      omega

lemma succ_mul_le_iff {B n : ℕ} (hB : 0 < B) (b : ℤ) : (b + 1) * B ≤ n ↔ b < (n / B : ℕ) := by
  have hB' : (0 : ℤ) < B := by exact_mod_cast hB
  rw [← Int.le_ediv_iff_mul_le hB', Int.natCast_div]
  omega

/-! ### The page of the block that is cut -/

/-- The bytes before the cut are as they were, those after it are zero. -/
lemma UsedPage.data_cutAt {o : String} {b index : ℤ} {pg : Page}
    (hu : UsedPage cfg o b pg) (i : ℤ) : (pg.cutAt cfg b index).data i
      = if index ≤ i ∧ i < cfg.ioBlockSize then 0 else pg.data i := by
  rw [Page.cutAt, Page.writeNullFrom, (hu.makeBlockReadableTo b (index - 1)).getBlockOffsets]
  simp only [slot, memset, Page.makeBlockReadableTo]
  exact if_congr (by omega) rfl rfl

namespace Cache

variable {c c' : Cache} {tbl tbl' : PageTable} {owner : String} {it : Item} {n : ℕ}

/-- The engine finds the blocks of the table, in their pages. -/
lemma Good.isBlockCached_some_iff (hG : c.Good cfg tbl) {o : String} {p : ℕ} {b : ℤ} :
    c.engine.isBlockCached cfg o (some p) b = true ↔ tbl p = some (o, b) := by
  simp [hG.rep.isBlockCached_iff]

/-- The pages of an owner are those of its blocks. -/
lemma Good.mem_owner_iff (hG : c.Good cfg tbl) {o : String} {p : ℕ} :
    (∃ s, c.engine.ownerPagesMapping.lookup o = some s ∧ p ∈ s) ↔ ∃ b, tbl p = some (o, b) := by
  constructor
  · rintro ⟨s, hs, hps⟩
    exact ((hG.rep.owned o s hs).2 p).mp hps
  · rintro ⟨b, hb⟩
    obtain ⟨s, hs⟩ := Option.isSome_iff_exists.mp (hG.rep.known p o b hb)
    exact ⟨s, hs, ((hG.rep.owned o s hs).2 p).mpr ⟨b, hb⟩⟩

/-- Without a page there is no entry. -/
lemma Good.entry_of_ne (hG : c.Good cfg tbl) {o : String} {b : ℤ}
    (hno : ∀ p, tbl p ≠ some (o, b)) : c.engine.entry o b = none := by
  by_contra hne
  obtain ⟨en, hen⟩ := Option.ne_none_iff_exists'.mp hne
  exact hno _ (hG.exact.of_entry o b en hen).1

/-- A block in a page has an info. -/
lemma Good.isSome_info_of_tbl (hG : c.Good cfg tbl) (hit : c.contents.lookup owner = some it)
    {p : ℕ} {b : ℤ} (hp : tbl p = some (owner, b)) : (it.data.blocks.lookup b).isSome := by
  obtain ⟨info, hinfo, -, -⟩ := (hG.items owner it hit).reads p b hp (by simp)
  rw [hinfo]
  rfl

/-- Of the blocks of an item those at or past `n` are gone, and the block that is shortened is the
one that `n` is in. -/
structure Aimed (cfg : Config) (it : Item) (n : ℕ) (gone edge : ℤ → Prop) : Prop where
  gone_iff : ∀ b, (it.data.blocks.lookup b).isSome → (gone b ↔ (n : ℤ) ≤ b * cfg.ioBlockSize)
  edge_iff : ∀ b, (it.data.blocks.lookup b).isSome → ¬ gone b →
    (edge b ↔ b = (n / cfg.ioBlockSize : ℕ))

section Aimed

variable {gone edge : ℤ → Prop}

/-- A block that ends at `n` or before it is left alone. -/
lemma Aimed.kept (hA : Aimed cfg it n gone edge) (hB : 0 < cfg.ioBlockSize) {b : ℤ}
    (hs : (it.data.blocks.lookup b).isSome) (hb : (b + 1) * cfg.ioBlockSize ≤ n) :
    ¬ gone b ∧ ¬ edge b := by
  rw [succ_mul_le_iff hB] at hb
  have hg : ¬ gone b := by
    rw [hA.gone_iff _ hs, ← LazyFS.gone_iff hB, Gone]
    omega
  refine ⟨hg, ?_⟩
  rw [hA.edge_iff _ hs hg]
  omega

/-- The block that `n` cuts is shortened. -/
lemma Aimed.boundary (hA : Aimed cfg it n gone edge) (hB : 0 < cfg.ioBlockSize)
    (hmod : 0 < n % cfg.ioBlockSize)
    (hs : (it.data.blocks.lookup ((n / cfg.ioBlockSize : ℕ) : ℤ)).isSome) :
    ¬ gone ((n / cfg.ioBlockSize : ℕ) : ℤ) ∧ edge ((n / cfg.ioBlockSize : ℕ) : ℤ) := by
  have hg : ¬ gone ((n / cfg.ioBlockSize : ℕ) : ℤ) := by
    rw [hA.gone_iff _ hs, ← LazyFS.gone_iff hB, Gone]
    omega
  exact ⟨hg, (hA.edge_iff _ hs hg).mpr rfl⟩

variable (h : OnePage cfg) (hG : c.Good cfg tbl) (hit : c.contents.lookup owner = some it)
  (hcut : Cut cfg c tbl owner it gone edge ((n % cfg.ioBlockSize : ℕ) : ℤ) c' tbl')
  (hA : Aimed cfg it n gone edge)

include hG hit hcut hA

/-- The table after the cut. -/
lemma Cut.table_iff {p : ℕ} {o : String} {b : ℤ} :
    tbl' p = some (o, b) ↔
      tbl p = some (o, b) ∧ ¬ (o = owner ∧ (n : ℤ) ≤ b * cfg.ioBlockSize) := by
  rw [hcut.table]
  refine and_congr_right fun hp => not_congr (and_congr_right fun ho => ?_)
  dsimp only at ho
  subst ho
  exact hA.gone_iff b (hG.isSome_info_of_tbl hit hp)

/-- An entry is there exactly for a block of the table. -/
lemma Cut.entry_eq (o : String) (b : ℤ) : c'.engine.entry o b
    = if o = owner ∧ (n : ℤ) ≤ b * cfg.ioBlockSize then none else c.engine.entry o b := by
  by_cases hp : ∃ p, tbl p = some (o, b)
  · obtain ⟨p, hp⟩ := hp
    split_ifs with hc
    · exact hcut.good.entry_of_ne fun q hq => ((hcut.table_iff hG hit hA).mp hq).2 hc
    · refine hcut.entry o b fun hx => hc ⟨hx.1, ?_⟩
      obtain ⟨rfl, hg⟩ := hx
      exact (hA.gone_iff b (hG.isSome_info_of_tbl hit hp)).mp hg
  · rw [not_exists] at hp
    rw [hG.entry_of_ne hp, ite_self]
    exact hcut.good.entry_of_ne fun q hq => hp q ((hcut.table_iff hG hit hA).mp hq).1

/-- The free pages are those that were free and those of the blocks that are gone. -/
lemma Cut.mem_free_iff (p : ℕ) : p ∈ c'.engine.freePages ↔ p ∈ c.engine.freePages ∨
    ∃ b : ℤ, (n : ℤ) ≤ b * cfg.ioBlockSize ∧ tbl p = some (owner, b) := by
  have htable : ∀ {o : String} {b : ℤ}, tbl' p = some (o, b) ↔
      tbl p = some (o, b) ∧ ¬ (o = owner ∧ (n : ℤ) ≤ b * cfg.ioBlockSize) :=
    hcut.table_iff hG hit hA
  rw [hcut.good.rep.mem_free, hG.rep.mem_free]
  constructor
  · rintro ⟨hlt, hnone, -⟩
    cases hp : tbl p with
    | none => exact .inl ⟨hlt, rfl, by simp⟩
    | some ob =>
        obtain ⟨o, b⟩ := ob
        have hx : o = owner ∧ (n : ℤ) ≤ b * cfg.ioBlockSize := by
          by_contra hc
          rw [htable.mpr ⟨hp, hc⟩] at hnone
          cases hnone
        obtain ⟨rfl, hb⟩ := hx
        exact .inr ⟨b, hb, rfl⟩
  · have hnone : (∀ o b, tbl' p ≠ some (o, b)) → tbl' p = none := by
      intro hno
      by_contra hne
      obtain ⟨⟨o, b⟩, hob⟩ := Option.ne_none_iff_exists'.mp hne
      exact hno o b hob
    rintro (⟨hlt, hp, -⟩ | ⟨b, hb, hp⟩)
    · refine ⟨hlt, hnone fun o b hob => ?_, by simp⟩
      rw [(htable.mp hob).1] at hp
      cases hp
    · refine ⟨hG.rep.lt hp, hnone fun o b' hob => ?_, by simp⟩
      obtain ⟨h1, h2⟩ := htable.mp hob
      rw [hp, Option.some.injEq, Prod.mk.injEq] at h1
      exact h2 ⟨h1.1.symm, h1.2 ▸ hb⟩

omit hG hit in
include h in
/-- The infos of the item after the cut. -/
lemma Cut.infos : ∃ it', c'.contents.lookup owner = some it' ∧
    (∀ b : ℤ, (n : ℤ) ≤ b * cfg.ioBlockSize → it'.data.blocks.lookup b = none) ∧
    (0 < n % cfg.ioBlockSize → it'.data.blocks.lookup ((n / cfg.ioBlockSize : ℕ) : ℤ)
      = (it.data.blocks.lookup ((n / cfg.ioBlockSize : ℕ) : ℤ)).map fun i =>
          i.truncateReadableTo ((n % cfg.ioBlockSize : ℕ) - 1)) ∧
    ∀ b : ℤ, (b + 1) * cfg.ioBlockSize ≤ n →
      it'.data.blocks.lookup b = it.data.blocks.lookup b := by
  obtain ⟨it', hit', -, h1, h2, h3⟩ := hcut.item
  -- a block that is not in the item stays out, wherever the code takes it to be
  have hnone : ∀ b, it.data.blocks.lookup b = none → it'.data.blocks.lookup b = none := by
    intro b hb
    by_cases hg : gone b
    · exact h1 b hg
    · by_cases he : edge b
      · rw [h2 b hg he, hb, Option.map_none]
      · rw [h3 b hg he, hb]
  refine ⟨it', hit', fun b hb => ?_, fun hmod => ?_, fun b hb => ?_⟩
  · cases hs : it.data.blocks.lookup b with
    | none => exact hnone b hs
    | some info => exact h1 b ((hA.gone_iff b (by rw [hs]; rfl)).mpr hb)
  · cases hs : it.data.blocks.lookup ((n / cfg.ioBlockSize : ℕ) : ℤ) with
    | none => exact hnone _ hs
    | some info =>
        obtain ⟨hg, he⟩ := hA.boundary h.pos hmod (by rw [hs]; rfl)
        rw [h2 _ hg he, hs]
  · cases hs : it.data.blocks.lookup b with
    | none => exact hnone b hs
    | some info =>
        obtain ⟨hg, he⟩ := hA.kept h.pos (by rw [hs]; rfl) hb
        rw [h3 b hg he, hs]

include h in
/-- **A cut that is aimed well** is the truncation. -/
lemma Cut.truncatedTo : c.TruncatedTo cfg owner it n c' := by
  refine ⟨hcut.infos h hA, fun o p b => ?_, hcut.entry_eq hG hit hA, fun o p => ?_,
    ⟨hcut.good.rep.nodup, fun p => ?_⟩, fun p hp => ?_, fun hmod p hp => ?_, fun o p b hp ho => ?_,
    hcut.others, hcut.names⟩
  · rw [hG.isBlockCached_some_iff, hcut.good.isBlockCached_some_iff, hcut.table_iff hG hit hA]
  · rw [hcut.good.mem_owner_iff]
    exact exists_congr fun b => hcut.good.isBlockCached_some_iff.symm
  · rw [hcut.mem_free_iff hG hit hA]
    exact or_congr_right (exists_congr fun b => and_congr_right fun _ =>
      hG.isBlockCached_some_iff.symm)
  · obtain ⟨h1, h2, h3, h4⟩ := hcut.good.repInv.free_page p hp
    exact ⟨h2, h1, h3, h4⟩
  · rw [hG.isBlockCached_some_iff] at hp
    obtain ⟨hg, he⟩ := hA.boundary h.pos hmod (hG.isSome_info_of_tbl hit hp)
    rw [hcut.edgePage p _ hp hg he]
    refine ⟨?_, fun i hi => ?_, fun i hi hlt => ?_, rfl⟩
    · simp [Page.cutAt, Page.writeNullFrom, Page.makeBlockReadableTo, BlockOffsets.getReadableTo,
        BlockOffsets.makeReadableTo]
    · rw [(hG.rep.usedPage hp).data_cutAt, if_neg (by omega)]
    · rw [(hG.rep.usedPage hp).data_cutAt, if_pos (by omega)]
  · rw [hG.isBlockCached_some_iff] at hp
    refine hcut.samePage p o b hp fun heq => ?_
    subst heq
    exact hA.kept h.pos (hG.isSome_info_of_tbl hit hp) (ho rfl)

end Aimed

section TruncateItem

variable (h : OnePage cfg) (hG : c.Good cfg tbl) (hit : c.contents.lookup owner = some it)

include h hG hit

/-- **A cut at zero** removes every block, also one before the start of the file. -/
lemma Good.truncatedTo_zero_iff :
    (∃ c', c.truncateItem cfg owner 0 = some (c', true) ∧ c.TruncatedTo cfg owner it 0 c') ↔
      it.Reaches cfg 0 := by
  obtain ⟨c1, tbl1, h1, hcut⟩ := hG.truncateItem_zero h hit ((0 % cfg.ioBlockSize : ℕ) : ℤ)
  constructor
  · rintro ⟨c', hc', hT⟩ b hb hbn
    rw [h1, Option.some.injEq, Prod.mk.injEq] at hc'
    obtain ⟨rfl, -⟩ := hc'
    -- the block is kept by the cut and removed by the code
    obtain ⟨it1, hit1, -, hg, -, -⟩ := hcut.item
    obtain ⟨it2, hit2, -, -, hkept⟩ := hT.infos
    rw [hit1, Option.some.injEq] at hit2
    subst hit2
    have hb0 : b < ((0 / cfg.ioBlockSize : ℕ) : ℤ) := by
      by_contra hc
      have : (0 : ℤ) ≤ b * cfg.ioBlockSize := mul_nonneg (by simpa using hc) (by omega)
      omega
    rw [← hkept b ((succ_mul_le_iff h.pos b).mpr hb0), hg b trivial] at hb
    cases hb
  · intro hR
    exact ⟨c1, h1, hcut.truncatedTo h hG hit
      ⟨fun b hb => iff_of_true trivial (not_lt.mp fun hlt => (hR b hb hlt).1 rfl),
        fun b _ hg => absurd trivial hg⟩⟩

omit h hG hit in
/-- The block of the cut, when it is no `int`, is taken for an earlier one. -/
lemma toInt_lt_of_far {q : ℕ} (hfar : ¬ q < 2 ^ 31) : toInt q < q := by
  have := toInt_lt q
  omega

omit h hG hit in
/-- Where the cut reaches every block, the code aims at the right ones. -/
lemma aimed_of_reaches (hB : 0 < cfg.ioBlockSize) (hR : it.Reaches cfg n) :
    Aimed cfg it n (Gone (toInt (n / cfg.ioBlockSize : ℕ)) ((n % cfg.ioBlockSize : ℕ) : ℤ))
      (fun b => b = toInt (n / cfg.ioBlockSize : ℕ)) := by
  have hgone : ∀ b, (it.data.blocks.lookup b).isSome →
      (Gone (toInt (n / cfg.ioBlockSize : ℕ)) ((n % cfg.ioBlockSize : ℕ) : ℤ) b ↔
        (n : ℤ) ≤ b * cfg.ioBlockSize) := by
    intro b hb
    by_cases hfit : n / cfg.ioBlockSize < 2 ^ 31
    · rw [toInt_of_lt hfit, gone_iff hB]
    · have htq := toInt_lt_of_far hfit
      constructor
      · intro hg
        by_contra hlt'
        have := (hR b hb (not_le.mp hlt')).2.resolve_left hfit
        rw [Gone] at hg
        omega
      · intro hle
        have hg := (gone_iff hB b).mpr hle
        rw [Gone] at hg ⊢
        omega
  refine ⟨hgone, fun b hb hg => ?_⟩
  by_cases hfit : n / cfg.ioBlockSize < 2 ^ 31
  · rw [toInt_of_lt hfit]
  · rw [hgone b hb, not_le] at hg
    have htq := toInt_lt_of_far hfit
    have := (hR b hb hg).2.resolve_left hfit
    omega

/-- **A cut inside the file.** -/
lemma Good.truncatedTo_pos_iff {size : ℕ}
    (hends : ∀ b info, it.data.blocks.lookup b = some info →
      info.readableOffset.2 = min (cfg.ioBlockSize : ℤ) (size - b * cfg.ioBlockSize) - 1)
    (hpos : 0 < n) (hn : n < size) :
    (∃ c', c.truncateItem cfg owner n = some (c', true) ∧ c.TruncatedTo cfg owner it n c') ↔
      it.Reaches cfg n := by
  have hq : (n : ℤ) / cfg.ioBlockSize = (n / cfg.ioBlockSize : ℕ) := rfl
  have hr : (n : ℤ) % cfg.ioBlockSize = (n % cfg.ioBlockSize : ℕ) := rfl
  have hlt := Nat.mod_lt n h.pos
  obtain ⟨c1, tbl1, h1, hcut⟩ := hG.truncateItem_pos h hit (show n ≠ 0 by omega)
  rw [hq, hr] at hcut
  refine ⟨?_, fun hR => ⟨c1, h1, hcut.truncatedTo h hG hit (aimed_of_reaches h.pos hR)⟩⟩
  rintro ⟨c', hc', hT⟩ b hb hbn
  rw [h1, Option.some.injEq, Prod.mk.injEq] at hc'
  obtain ⟨rfl, -⟩ := hc'
  refine ⟨by omega, ?_⟩
  by_contra hfar
  obtain ⟨hfar, hbelow⟩ := not_or.mp hfar
  have htq := toInt_lt_of_far hfar
  obtain ⟨info, hinfo⟩ := Option.isSome_iff_exists.mp hb
  obtain ⟨it1, hit1, -, hg, he, -⟩ := hcut.item
  obtain ⟨it2, hit2, -, hedge, hkept⟩ := hT.infos
  rw [hit1, Option.some.injEq] at hit2
  subst hit2
  have hbq : ¬ Gone ((n / cfg.ioBlockSize : ℕ) : ℤ) ((n % cfg.ioBlockSize : ℕ) : ℤ) b := by
    rw [gone_iff h.pos]
    omega
  have hcase : b < (n / cfg.ioBlockSize : ℕ) ∨
      b = (n / cfg.ioBlockSize : ℕ) ∧ 0 < n % cfg.ioBlockSize := by
    rw [Gone] at hbq
    omega
  by_cases hgb : Gone (toInt (n / cfg.ioBlockSize : ℕ)) ((n % cfg.ioBlockSize : ℕ) : ℤ) b
  · -- the code removes a block that the cut keeps
    have hnone := hg b hgb
    rcases hcase with hlt' | ⟨rfl, hmod⟩
    · rw [hkept b ((succ_mul_le_iff h.pos b).mpr hlt'), hinfo] at hnone
      cases hnone
    · rw [hedge hmod, hinfo] at hnone
      cases hnone
  · -- the code shortens a block that the cut keeps
    have hbt : b = toInt (n / cfg.ioBlockSize : ℕ) := by
      rw [Gone] at hgb
      omega
    have hle := (succ_mul_le_iff h.pos b).mpr (hbt ▸ htq)
    have hcutb := he b hgb hbt
    rw [hkept b hle, hinfo, Option.map_some, Option.some.injEq] at hcutb
    have hend := hends b info hinfo
    rw [hcutb] at hend
    simp only [BlockInfo.truncateReadableTo] at hend
    rw [add_mul, one_mul] at hle
    omega

/-- **Exact truncation** of an item of a cache in order. -/
theorem Good.truncatedTo_iff_reaches {size : ℕ}
    (hends : ∀ b info, it.data.blocks.lookup b = some info →
      info.readableOffset.2 = min (cfg.ioBlockSize : ℤ) (size - b * cfg.ioBlockSize) - 1)
    (hn : n < size) :
    (∃ c', c.truncateItem cfg owner n = some (c', true) ∧ c.TruncatedTo cfg owner it n c') ↔
      it.Reaches cfg n := by
  rcases Nat.eq_zero_or_pos n with rfl | hpos
  · exact hG.truncatedTo_zero_iff h hit
  · exact hG.truncatedTo_pos_iff h hit hends hpos hn

end TruncateItem

end Cache

/-- **Exact truncation** of an item after every sequence of operations from a fresh cache, with
eviction off. -/
theorem truncatedTo_iff (h : OnePage cfg) (hl : cfg.applyLruEviction = false) (d : Disk)
    (ops : List CacheOp) (hops : ∀ op ∈ ops, op.Labelled) {s : Cache × Disk}
    (hrun : Runs.run (CacheOp.run cfg) (Cache.new cfg, d) ops = some s) {owner : String} {it : Item}
    (hit : s.1.contents.lookup owner = some it) {size n : ℕ}
    (hends : ∀ b info, it.data.blocks.lookup b = some info →
      info.readableOffset.2 = min (cfg.ioBlockSize : ℤ) (size - b * cfg.ioBlockSize) - 1)
    (hn : n < size) :
    (∃ c', s.1.truncateItem cfg owner n = some (c', true) ∧ s.1.TruncatedTo cfg owner it n c') ↔
      it.Reaches cfg n := by
  obtain ⟨c, d', tbl, hrun', hG⟩ := good_of_run h hl d ops hops
  rw [hrun, Option.some.injEq] at hrun'
  subst hrun'
  exact hG.truncatedTo_iff_reaches h hit hends hn

/-- Two full blocks and a part of a third one. -/
def threeBlocks : List CacheOp :=
  [.putDataBlocks "7" (Map.single 0 ⟨fun _ => 1, 4, 0, 3⟩) .opWrite,
    .putDataBlocks "7" (Map.single 1 ⟨fun _ => 2, 4, 0, 3⟩) .opWrite,
    .putDataBlocks "7" (Map.single 2 ⟨fun _ => 3, 2, 0, 1⟩) .opWrite]

/-- An item of 10 bytes cut to 6 bytes. -/
theorem truncatedTo_iff_six : ∃ s it,
    Runs.run (CacheOp.run (.tiny 3 false))
    (Cache.new (.tiny 3 false), Disk.empty) threeBlocks = some s ∧
      s.1.contents.lookup "7" = some it ∧
      ∃ c', s.1.truncateItem (.tiny 3 false) "7" 6 = some (c', true) ∧
        s.1.TruncatedTo (.tiny 3 false) "7" it 6 c' := by
  obtain ⟨s, hs⟩ := Option.isSome_iff_exists.mp (show (Runs.run (CacheOp.run (.tiny 3 false))
    (Cache.new (.tiny 3 false), Disk.empty) threeBlocks).isSome by decide +kernel)
  have hval : (Runs.run (CacheOp.run (.tiny 3 false)) (Cache.new (.tiny 3 false), Disk.empty)
      threeBlocks).map (fun s => (s.1.contents.lookup "7").map
        fun it => it.data.blocks.entries.map fun e => (e.1, e.2.readableOffset.2))
      = some (some [(2, 1), (1, 3), (0, 3)]) := by decide +kernel
  rw [hs, Option.map_some, Option.some.injEq, Option.map_eq_some_iff] at hval
  obtain ⟨it, hit, hblocks⟩ := hval
  have hends : ∀ b info, it.data.blocks.lookup b = some info → info.readableOffset.2
      = min ((Config.tiny 3 false).ioBlockSize : ℤ)
          ((10 : ℕ) - b * (Config.tiny 3 false).ioBlockSize) - 1 := by
    intro b info hinfo
    have hmem : (b, info.readableOffset.2) ∈ [((2 : ℤ), (1 : ℤ)), (1, 3), (0, 3)] := by
      rw [← hblocks]
      exact List.mem_map.mpr ⟨⟨b, info⟩, AList.mem_lookup_iff.mp hinfo, rfl⟩
    simp only [List.mem_cons, Prod.mk.injEq, List.not_mem_nil, or_false] at hmem
    rcases hmem with ⟨rfl, hend⟩ | ⟨rfl, hend⟩ | ⟨rfl, hend⟩
    all_goals
      rw [hend]
      decide
  exact ⟨s, it, hs, hit, (truncatedTo_iff (Config.onePage_tiny 3 false) rfl Disk.empty threeBlocks
    (by simp [threeBlocks, CacheOp.Labelled]) hs hit hends (show 6 < 10 by decide)).mpr
      fun b _ _ => ⟨by decide, .inl (by decide)⟩⟩

/-! ### A cut past the range of `int` -/

/-- Block 0 of an item of `2 ^ 34` bytes. -/
def farItem : List CacheOp :=
  [.putDataBlocks "7" (Map.single 0 ⟨fun _ => 1, 4, 0, 3⟩) .opRead,
    .updateContentMetadata "7" { Metadata.new with size := 2 ^ 34 } [.size]]

/-- **A cut at block `2 ^ 31`** takes block 0 with it. -/
theorem truncate_far : ∃ s it,
    Runs.run (CacheOp.run (.tiny 1 false))
    (Cache.new (.tiny 1 false), Disk.empty) farItem = some s ∧
      s.1.contents.lookup "7" = some it ∧
      (∀ b info, it.data.blocks.lookup b = some info →
        info.readableOffset.2 = min ((Config.tiny 1 false).ioBlockSize : ℤ)
          (it.metadata.size - b * (Config.tiny 1 false).ioBlockSize) - 1) ∧
      2 ^ 33 < it.metadata.size ∧
      ¬ ∃ c', s.1.truncateItem (.tiny 1 false) "7" (2 ^ 33) = some (c', true) ∧
        s.1.TruncatedTo (.tiny 1 false) "7" it (2 ^ 33) c' := by
  obtain ⟨s, hs⟩ := Option.isSome_iff_exists.mp (show (Runs.run (CacheOp.run (.tiny 1 false))
    (Cache.new (.tiny 1 false), Disk.empty) farItem).isSome by decide +kernel)
  have hval : (Runs.run (CacheOp.run (.tiny 1 false)) (Cache.new (.tiny 1 false), Disk.empty)
      farItem).map (fun s => (s.1.contents.lookup "7").map fun it =>
        (it.metadata.size, it.data.blocks.entries.map fun e => (e.1, e.2.readableOffset.2)))
      = some (some (2 ^ 34, [(0, 3)])) := by decide +kernel
  have hcut : (Runs.run (CacheOp.run (.tiny 1 false)) (Cache.new (.tiny 1 false), Disk.empty)
      farItem).map (fun s => (s.1.isBlockCached (.tiny 1 false) "7" 0,
        s.1.engine.isBlockCached (.tiny 1 false) "7" (some 0) 0,
        (s.1.truncateItem (.tiny 1 false) "7" (2 ^ 33)).map fun r =>
          r.1.engine.isBlockCached (.tiny 1 false) "7" (some 0) 0))
      = some (true, true, some false) := by decide +kernel
  rw [hs, Option.map_some, Option.some.injEq] at hval hcut
  rw [Option.map_eq_some_iff] at hval
  obtain ⟨it, hit, hblocks⟩ := hval
  rw [Prod.mk.injEq] at hblocks
  refine ⟨s, it, hs, hit, fun b info hinfo => ?_, by rw [hblocks.1]; decide, ?_⟩
  · have hmem : (b, info.readableOffset.2) ∈ [((0 : ℤ), (3 : ℤ))] := by
      rw [← hblocks.2]
      exact List.mem_map.mpr ⟨⟨b, info⟩, AList.mem_lookup_iff.mp hinfo, rfl⟩
    simp only [List.mem_cons, Prod.mk.injEq, List.not_mem_nil, or_false] at hmem
    obtain ⟨rfl, hend⟩ := hmem
    rw [hend, hblocks.1]
    decide
  · rintro ⟨c', hc', hT⟩
    simp only [Prod.mk.injEq, hc', Option.map_some, Option.some.injEq] at hcut
    have hkept := (hT.cached "7" 0 0).mpr ⟨hcut.2.1, fun hx => absurd hx.2 (by decide)⟩
    rw [hcut.2.2] at hkept
    cases hkept

end LazyFS
