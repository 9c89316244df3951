import LazyFS.File.View

/-!
The contents of a file, spread over its resident blocks and the backing file.

* `FileView.At`, `FileView.Holds`: where the byte at a position is found; what the cache has of it
  is readable.  `FileView.Clean`: a clean block is also in the backing file.
* `FileView.Bounded`: readable ends stay in their blocks.
* `FileView.Snug`, `FileView.Tight`: no block can be read past the end of the contents, and nothing
  is stored past it.
* `Holds.writeBlocks`, `Bounded.writeBlocks`, `Tight.writeBlocks`: a write of the view is a write of
  the contents.
-/

namespace LazyFS

namespace FileView

variable {B knownEnd : ℕ} {f : FileView} {c : List UInt8}

/-- The byte at position `i` of the contents `c`: in its block when that is resident, and in the
backing file when it is not. -/
def At (B : ℕ) (c : List UInt8) (f : FileView) (i : ℕ) : Prop :=
  match f.blocks (toInt (i / B : ℕ)) with
  | some v => ((i % B : ℕ) : ℤ) ≤ v.readableTo ∧ v.bytes[i % B]? = (c)[i]?
  | none => f.disk[i]? = (c)[i]?

/-- The file has the contents `c`. -/
def Holds (B : ℕ) (c : List UInt8) (f : FileView) : Prop := ∀ i < c.length, f.At B c i

/-- What is in a clean block is in the backing file as well. -/
def Clean (B : ℕ) (c : List UInt8) (f : FileView) : Prop :=
  ∀ i < c.length, ∀ v, f.blocks (toInt (i / B : ℕ)) = some v → v.dirty = false →
    f.disk[i]? = (c)[i]?

/-- The readable end of every resident block lies in the block. -/
def Bounded (B : ℕ) (f : FileView) : Prop :=
  ∀ b v, f.blocks b = some v → 0 ≤ v.readableTo ∧ v.readableTo < B ∧ v.bytes.length = B

/-- Every resident block meets `c` and is readable to the end of `c` at most. -/
def Snug (B : ℕ) (c : List UInt8) (f : FileView) : Prop :=
  ∀ b v, f.blocks b = some v → ∃ n : ℕ, b = toInt n ∧ n * B < c.length ∧
    n * B + (v.readableTo + 1) = min ((n + 1) * B : ℕ) c.length

/-- Nothing past the end of `c` is stored, not in a block and not in the backing file. -/
structure Tight (B : ℕ) (c : List UInt8) (f : FileView) : Prop where
  disk_le : f.disk.length ≤ c.length
  blocks : Snug B c f

lemma at_some {i : ℕ} {v : BlockView} (hv : f.blocks (toInt (i / B : ℕ)) = some v) :
    f.At B c i ↔ ((i % B : ℕ) : ℤ) ≤ v.readableTo ∧ v.bytes[i % B]? = (c)[i]? := by
  rw [At, hv]

lemma at_none {i : ℕ} (hv : f.blocks (toInt (i / B : ℕ)) = none) :
    f.At B c i ↔ f.disk[i]? = (c)[i]? := by
  rw [At, hv]

/-! ### One block of a write -/

lemma blocks_setBlock_self (b : ℤ) (v : BlockView) : (f.setBlock b v).blocks b = some v := by
  simp [setBlock]

lemma blocks_setBlock_ne {b b' : ℤ} (v : BlockView) (h : b' ≠ b) :
    (f.setBlock b v).blocks b' = f.blocks b' := by
  simp [setBlock, h]

lemma writeBlock_some {stored : Bool} {n off : ℕ} {sg : List UInt8} {v : BlockView}
    (h : f.blocks (toInt n) = some v) :
    f.writeBlock B knownEnd stored n off sg = f.setBlock (toInt n) (v.overwrite off sg) := by
  rw [writeBlock, h]

lemma writeBlock_stored {n off : ℕ} {sg : List UInt8} (h : f.blocks (toInt n) = none) :
    f.writeBlock B knownEnd true n off sg = f.setBlock (toInt n)
      ((BlockView.zero B).overwrite 0 (Bytes.write (f.found B knownEnd n) off sg)) := by
  rw [writeBlock, h]
  rfl

lemma writeBlock_through {n off : ℕ} {sg : List UInt8} (h : f.blocks (toInt n) = none) :
    f.writeBlock B knownEnd false n off sg
      = { f with disk := Bytes.write f.disk (n * B + off) sg } := by
  rw [writeBlock, h]
  rfl

/-- A block that is written in its page or stored leaves the backing file alone. -/
lemma disk_writeBlock {stored : Bool} {n off : ℕ} {sg : List UInt8}
    (h : f.blocks (toInt n) ≠ none ∨ stored = true) :
    (f.writeBlock B knownEnd stored n off sg).disk = f.disk := by
  cases hv : f.blocks (toInt n) with
  | some v =>
      rw [writeBlock_some hv]
      rfl
  | none =>
      rcases h with h | rfl
      · exact absurd hv h
      · rw [writeBlock_stored hv]
        rfl

/-- The quotient and the remainder of a position of block `n`. -/
lemma div_mod_of_mem {n i : ℕ} (h1 : n * B ≤ i) (h2 : i < (n + 1) * B) :
    i / B = n ∧ i % B = i - n * B := by
  have hq : i / B = n := Nat.div_eq_of_lt_le h1 h2
  refine ⟨hq, ?_⟩
  have h3 := Nat.div_add_mod i B
  rw [hq, mul_comm] at h3
  omega

section

variable {n p : ℕ} {sg : List UInt8} {stored : Bool}

lemma length_found_le (n : ℕ) : (f.found B knownEnd n).length ≤ B := by
  rw [found]
  split_ifs
  · rw [Bytes.length_slice]
    omega
  · simp

/-- A segment stays in its block. -/
lemma Bounded.writeBlock (h : Bounded B f) (hs : sg ≠ []) (h1 : n * B ≤ p)
    (h2 : p + sg.length ≤ (n + 1) * B) :
    Bounded B (f.writeBlock B knownEnd stored n (p - n * B) sg) := by
  have hpos : 0 < sg.length := List.length_pos_of_ne_nil hs
  have h3 : p - n * B + sg.length ≤ B := by
    rw [Nat.add_mul, one_mul] at h2
    omega
  intro b v hv
  -- the block that is written, over its page, over the old bytes or past the pool
  by_cases hb : b = toInt n
  · rw [hb] at hv
    cases hw : f.blocks (toInt n) with
    | some w =>
        rw [writeBlock_some hw, blocks_setBlock_self, Option.some.injEq] at hv
        obtain ⟨g1, g2, g3⟩ := h _ w hw
        rw [← hv, BlockView.overwrite]
        refine ⟨by dsimp only; omega, by dsimp only; omega, ?_⟩
        rw [Bytes.length_write _ _ hs, g3]
        omega
    | none =>
        cases stored with
        | true =>
            have hm : (Bytes.write (f.found B knownEnd n) (p - n * B) sg).length
                = max (f.found B knownEnd n).length (p - n * B + sg.length) :=
              Bytes.length_write _ _ hs
            have hle : (f.found B knownEnd n).length ≤ B := length_found_le n
            rw [writeBlock_stored hw, blocks_setBlock_self, Option.some.injEq] at hv
            rw [← hv, BlockView.overwrite, BlockView.zero]
            refine ⟨by dsimp only; omega, by dsimp only; omega, ?_⟩
            rw [Bytes.length_write_of_le _ _ _ (by rw [hm, List.length_replicate]; omega),
              List.length_replicate]
        | false =>
            rw [writeBlock_through hw] at hv
            exact h _ v hv
  · refine h b v ?_
    rw [← hv]
    rw [FileView.writeBlock]
    split
    · exact (blocks_setBlock_ne _ hb).symm
    · split_ifs
      · exact (blocks_setBlock_ne _ hb).symm
      · rfl

/-- What the backing file has of a block that is not resident is what the contents have of it. -/
lemma Holds.getElem?_found (h : Holds B c f) (hn : f.blocks (toInt n) = none)
    (hB : n * B < knownEnd) {i : ℕ} (h1 : n * B ≤ i) (h2 : i < (n + 1) * B) (hi : i < c.length) :
    (f.found B knownEnd n)[i - n * B]? = (c)[i]? ∧ i - n * B < (f.found B knownEnd n).length := by
  obtain ⟨hdiv, -⟩ := div_mod_of_mem h1 h2
  have h3 : i - n * B < B := by
    rw [Nat.add_mul, one_mul] at h2
    omega
  have hat : f.disk[i]? = (c)[i]? := (at_none (by rw [hdiv]; exact hn)).mp (h i hi)
  have hval : (f.found B knownEnd n)[i - n * B]? = (c)[i]? := by
    rw [found, if_pos hB, Bytes.getElem?_slice _ h3, ← hat]
    congr 1
    omega
  refine ⟨hval, ?_⟩
  rw [List.getElem?_eq_getElem hi] at hval
  exact (List.getElem?_eq_some_iff.mp hval).1

/-- The blocks other than the one written. -/
lemma blocks_writeBlock_ne {off : ℕ} {b : ℤ} (hb : b ≠ toInt n) :
    (f.writeBlock B knownEnd stored n off sg).blocks b = f.blocks b := by
  rw [FileView.writeBlock]
  split
  · exact blocks_setBlock_ne _ hb
  · split_ifs
    · exact blocks_setBlock_ne _ hb
    · rfl

variable (f c knownEnd stored) in
/-- One block of a write changes no position of another block. -/
lemma writeBlock_other (hs : sg ≠ []) (hp : p ≤ c.length) (h1 : n * B ≤ p)
    (h2 : p + sg.length ≤ (n + 1) * B) (hbig : max c.length (p + sg.length) ≤ 2 ^ 32 * B) {i : ℕ}
    (hi : i < max c.length (p + sg.length)) (hin : ¬ (n * B ≤ i ∧ i < (n + 1) * B)) :
    i < c.length ∧ (Bytes.write c p sg)[i]? = (c)[i]? ∧
      (f.writeBlock B knownEnd stored n (p - n * B) sg).blocks (toInt (i / B : ℕ))
        = f.blocks (toInt (i / B : ℕ)) ∧
      (f.disk[i]? = (c)[i]? →
        (f.writeBlock B knownEnd stored n (p - n * B) sg).disk[i]? = (c)[i]?) := by
  have hpos : 0 < sg.length := List.length_pos_of_ne_nil hs
  have hBpos : 0 < B := by
    rw [Nat.add_mul, one_mul] at h2
    omega
  have hic : i < c.length := by omega
  have hne : toInt (i / B : ℕ) ≠ toInt n := by
    intro heq
    have hi32 : i / B < 2 ^ 32 := (Nat.div_lt_iff_lt_mul hBpos).mpr (by omega)
    have hn32 : n < 2 ^ 32 := Nat.lt_of_mul_lt_mul_right (a := B) (by omega)
    have hq : i / B = n := toInt_inj hi32 hn32 heq
    have h3 := Nat.div_add_mod i B
    have h4 := Nat.mod_lt i hBpos
    rw [hq, mul_comm] at h3
    rw [Nat.add_mul, one_mul] at hin
    omega
  refine ⟨hic, Bytes.getElem?_write_of_not_mem c (by omega) hic, blocks_writeBlock_ne hne,
    fun hd => ?_⟩
  have hlt : i < f.disk.length := by
    rw [List.getElem?_eq_getElem hic] at hd
    exact (List.getElem?_eq_some_iff.mp hd).1
  rw [FileView.writeBlock]
  split
  · exact hd
  · split_ifs
    · exact hd
    · rw [← hd]
      exact Bytes.getElem?_write_of_not_mem _ (by omega) hlt

/-- A block of a write is a write of the contents, when a block that is stored without its old
bytes has none. -/
lemma Holds.writeBlock (h : Holds B c f) (hs : sg ≠ []) (hp : p ≤ c.length) (h1 : n * B ≤ p)
    (h2 : p + sg.length ≤ (n + 1) * B) (hbig : max c.length (p + sg.length) ≤ 2 ^ 32 * B)
    (hfresh : f.blocks (toInt n) = none → stored = true → knownEnd ≤ n * B → c.length ≤ n * B) :
    Holds B (Bytes.write c p sg) (f.writeBlock B knownEnd stored n (p - n * B) sg) := by
  have hpos : 0 < sg.length := List.length_pos_of_ne_nil hs
  have hoff : p - n * B + sg.length ≤ B := by
    rw [Nat.add_mul, one_mul] at h2
    omega
  have hBpos : 0 < B := by omega
  intro i hi
  rw [Bytes.length_write _ _ hs] at hi
  by_cases hin : n * B ≤ i ∧ i < (n + 1) * B
  · obtain ⟨hdiv, hmod⟩ := div_mod_of_mem hin.1 hin.2
    -- outside the segment the position was there before
    have hold : ¬ (p ≤ i ∧ i < p + sg.length) → i < c.length := fun hc => by omega
    have hcont : ¬ (p ≤ i ∧ i < p + sg.length) → (Bytes.write c p sg)[i]? = (c)[i]? :=
      fun hc => Bytes.getElem?_write_of_not_mem c (by omega) (hold hc)
    cases hw : f.blocks (toInt n) with
    | some w =>
        -- a cached block, overwritten
        rw [writeBlock_some hw, at_some (by rw [hdiv]; exact blocks_setBlock_self _ _), hmod,
          BlockView.overwrite]
        dsimp only
        by_cases hc : p ≤ i ∧ i < p + sg.length
        · refine ⟨by omega, ?_⟩
          rw [Bytes.getElem?_write_of_mem _ (by omega) (by omega),
            Bytes.getElem?_write_of_mem _ hc.1 hc.2]
          congr 1
          omega
        · obtain ⟨g1, g2⟩ := (at_some (by rw [hdiv]; exact hw)).mp (h i (hold hc))
          rw [hmod] at g1 g2
          have hlt : i - n * B < w.bytes.length := by
            rw [List.getElem?_eq_getElem (hold hc)] at g2
            exact (List.getElem?_eq_some_iff.mp g2).1
          refine ⟨by omega, ?_⟩
          rw [Bytes.getElem?_write_of_not_mem _ (by omega) hlt, g2, hcont hc]
    | none =>
        cases stored with
        | true =>
            -- a new block over what was found below
            have hm : (Bytes.write (f.found B knownEnd n) (p - n * B) sg).length
                = max (f.found B knownEnd n).length (p - n * B + sg.length) :=
              Bytes.length_write _ _ hs
            have hle : (f.found B knownEnd n).length ≤ B := length_found_le n
            rw [writeBlock_stored hw, at_some (by rw [hdiv]; exact blocks_setBlock_self _ _), hmod,
              BlockView.overwrite, BlockView.zero]
            dsimp only
            by_cases hc : p ≤ i ∧ i < p + sg.length
            · refine ⟨by omega, ?_⟩
              rw [Bytes.getElem?_write_of_mem _ (Nat.zero_le _) (by omega), Nat.sub_zero,
                Bytes.getElem?_write_of_mem _ (by omega) (by omega),
                Bytes.getElem?_write_of_mem _ hc.1 hc.2]
              congr 1
              omega
            · have hknown : n * B < knownEnd := by
                by_contra hk
                have := hfresh hw rfl (by omega)
                have := hold hc
                omega
              obtain ⟨g1, g2⟩ := h.getElem?_found hw hknown hin.1 hin.2 (hold hc)
              refine ⟨by omega, ?_⟩
              rw [Bytes.getElem?_write_of_mem _ (Nat.zero_le _) (by omega), Nat.sub_zero,
                Bytes.getElem?_write_of_not_mem _ (by omega) g2, g1, hcont hc]
        | false =>
            -- the cache kept no block: the segment went below
            have hpn : n * B + (p - n * B) = p := by omega
            rw [writeBlock_through hw, at_none (by rw [hdiv]; exact hw), hpn]
            dsimp only
            by_cases hc : p ≤ i ∧ i < p + sg.length
            · rw [Bytes.getElem?_write_of_mem _ hc.1 hc.2, Bytes.getElem?_write_of_mem _ hc.1 hc.2]
            · have hat := (at_none (by rw [hdiv]; exact hw)).mp (h i (hold hc))
              have hlt : i < f.disk.length := by
                rw [List.getElem?_eq_getElem (hold hc)] at hat
                exact (List.getElem?_eq_some_iff.mp hat).1
              rw [Bytes.getElem?_write_of_not_mem _ (by omega) hlt, hat, hcont hc]
  · obtain ⟨hic, hcont, hblocks, hdisk⟩ :=
      writeBlock_other knownEnd f c stored hs hp h1 h2 hbig hi hin
    cases hw : f.blocks (toInt (i / B : ℕ)) with
    | some w =>
        rw [at_some (hblocks.trans hw), hcont]
        exact (at_some hw).mp (h i hic)
    | none =>
        rw [at_none (hblocks.trans hw), hcont]
        exact hdisk ((at_none hw).mp (h i hic))

/-- A block that was written is dirty. -/
lemma Clean.writeBlock (h : Clean B c f) (hs : sg ≠ []) (hp : p ≤ c.length) (h1 : n * B ≤ p)
    (h2 : p + sg.length ≤ (n + 1) * B) (hbig : max c.length (p + sg.length) ≤ 2 ^ 32 * B) :
    Clean B (Bytes.write c p sg) (f.writeBlock B knownEnd stored n (p - n * B) sg) := by
  intro i hi v hv hclean
  rw [Bytes.length_write _ _ hs] at hi
  by_cases hin : n * B ≤ i ∧ i < (n + 1) * B
  · obtain ⟨hdiv, -⟩ := div_mod_of_mem hin.1 hin.2
    rw [hdiv] at hv
    cases hw : f.blocks (toInt n) with
    | some w =>
        rw [writeBlock_some hw, blocks_setBlock_self, Option.some.injEq] at hv
        rw [← hv] at hclean
        cases hclean
    | none =>
        cases stored with
        | true =>
            rw [writeBlock_stored hw, blocks_setBlock_self, Option.some.injEq] at hv
            rw [← hv] at hclean
            cases hclean
        | false =>
            rw [writeBlock_through hw] at hv
            exact absurd (hw.symm.trans hv) (by simp)
  · obtain ⟨hic, hcont, hblocks, hdisk⟩ :=
      writeBlock_other knownEnd f c stored hs hp h1 h2 hbig hi hin
    rw [hcont]
    exact hdisk (h i hic v (hblocks.symm.trans hv) hclean)

/-- Without a gap the last block of the contents stays the last one that is not full. -/
lemma Snug.writeBlock (h : Snug B c f) (hc : Holds B c f) (hs : sg ≠ []) (hp : p ≤ c.length)
    (h1 : n * B ≤ p) (h2 : p + sg.length ≤ (n + 1) * B)
    (hbig : max c.length (p + sg.length) ≤ 2 ^ 32 * B)
    (hdisk : f.disk.length ≤ c.length ∨ (n + 1) * B ≤ c.length)
    (hfresh : f.blocks (toInt n) = none → stored = true → knownEnd ≤ n * B → c.length ≤ n * B) :
    Snug B (Bytes.write c p sg) (f.writeBlock B knownEnd stored n (p - n * B) sg) := by
  have hpos : 0 < sg.length := List.length_pos_of_ne_nil hs
  have hBpos : 0 < B := by
    rw [Nat.add_mul, one_mul] at h2
    omega
  have hn1 : (n + 1) * B = n * B + B := by rw [Nat.add_mul, one_mul]
  have hn32 : n < 2 ^ 32 := Nat.lt_of_mul_lt_mul_right (a := B) (by omega)
  have hlen : (Bytes.write c p sg).length = max c.length (p + sg.length) :=
    Bytes.length_write _ _ hs
  intro b v hv
  by_cases hb : b = toInt n
  · rw [hb] at hv
    refine ⟨n, hb, by rw [hlen]; omega, ?_⟩
    cases hw : f.blocks (toInt n) with
    | some w =>
        -- a cached block, whose readable part may have grown
        rw [writeBlock_some hw, blocks_setBlock_self, Option.some.injEq] at hv
        obtain ⟨m, hm, hmc, hread⟩ := h _ w hw
        have hm32 : m < 2 ^ 32 := Nat.lt_of_mul_lt_mul_right (a := B) (by omega)
        have hmn : n = m := toInt_inj hn32 hm32 hm
        rw [← hmn, hn1] at hread
        rw [← hv, BlockView.overwrite, hlen, hn1]
        dsimp only
        omega
    | none =>
        cases stored with
        | true =>
            have hml : (Bytes.write (f.found B knownEnd n) (p - n * B) sg).length
                = max (f.found B knownEnd n).length (p - n * B + sg.length) :=
              Bytes.length_write _ _ hs
            rw [writeBlock_stored hw, blocks_setBlock_self, Option.some.injEq] at hv
            rw [← hv, BlockView.overwrite, BlockView.zero, hlen, hn1]
            dsimp only
            -- the old bytes of the block, up to the end of the contents
            have hfound : (f.found B knownEnd n).length = min B (c.length - n * B) := by
              by_cases hcn : c.length ≤ n * B
              · have h0 : f.found B knownEnd n = [] := by
                  rw [found]
                  split_ifs
                  · exact Bytes.slice_eq_nil _ _ (by omega)
                  · rfl
                rw [h0, List.length_nil]
                omega
              · have hknown : n * B < knownEnd := by
                  by_contra hk
                  exact hcn (hfresh hw rfl (by omega))
                have hlast := (hc.getElem?_found (i := min ((n + 1) * B) c.length - 1) hw hknown
                  (by omega) (by omega) (by omega)).2
                have hle : (f.found B knownEnd n).length ≤ min B (c.length - n * B) := by
                  rw [found, if_pos hknown, Bytes.length_slice]
                  omega
                omega
            omega
        | false =>
            rw [writeBlock_through hw] at hv
            dsimp only at hv
            rw [hw] at hv
            cases hv
  · rw [blocks_writeBlock_ne hb] at hv
    obtain ⟨m, hm, hmc, hread⟩ := h b v hv
    refine ⟨m, hm, by rw [hlen]; omega, ?_⟩
    have hmn : m ≠ n := fun heq => hb (by rw [hm, heq])
    have hm1 : (m + 1) * B = m * B + B := by rw [Nat.add_mul, one_mul]
    rw [hread, hlen]
    rcases Nat.lt_or_ge m n with hlt | hge
    · have : (m + 1) * B ≤ n * B := Nat.mul_le_mul_right B hlt
      omega
    · have : (n + 1) * B ≤ m * B := Nat.mul_le_mul_right B (by omega)
      omega

/-- One block of a write stores nothing past the end of the contents. -/
lemma Tight.writeBlock (h : Tight B c f) (hc : Holds B c f) (hs : sg ≠ []) (hp : p ≤ c.length)
    (h1 : n * B ≤ p) (h2 : p + sg.length ≤ (n + 1) * B)
    (hbig : max c.length (p + sg.length) ≤ 2 ^ 32 * B)
    (hfresh : f.blocks (toInt n) = none → stored = true → knownEnd ≤ n * B → c.length ≤ n * B) :
    Tight B (Bytes.write c p sg) (f.writeBlock B knownEnd stored n (p - n * B) sg) := by
  refine ⟨?_, h.blocks.writeBlock hc hs hp h1 h2 hbig (.inl h.disk_le) hfresh⟩
  have hdisk := h.disk_le
  rw [Bytes.length_write _ _ hs, FileView.writeBlock]
  split
  · exact hdisk.trans (le_max_left _ _)
  · split_ifs
    · exact hdisk.trans (le_max_left _ _)
    · dsimp only
      rw [Bytes.length_write _ _ hs]
      omega

end

/-! ### A whole write -/

section

variable {offset : ℕ} {src : List UInt8} {stored : ℕ → Bool}

/-- A block that is stored without its old bytes has none, for the blocks of a write. -/
def FreshOk (B knownEnd : ℕ) (c : List UInt8) (f : FileView) (stored : ℕ → Bool)
    (offset stop : ℕ) : Prop :=
  ∀ n ∈ blocksOf B offset stop, f.blocks (toInt n) = none → stored n = true → knownEnd ≤ n * B →
    c.length ≤ n * B

/-- What one block of a write is. -/
lemma seg_facts (hB : 0 < B) (hs : src ≠ []) {n : ℕ}
    (hn : n ∈ blocksOf B offset (offset + src.length)) :
    seg B offset src n ≠ [] ∧ n * B ≤ segFrom B offset n ∧
      segFrom B offset n + (seg B offset src n).length = segTo B (offset + src.length) n ∧
      segTo B (offset + src.length) n ≤ (n + 1) * B := by
  have hpos : 0 < src.length := List.length_pos_of_ne_nil hs
  obtain ⟨h1, h2⟩ := (mem_blocksOf hB (by omega)).mp hn
  have h3 := segFrom_lt_segTo (by omega) h1 h2 hB
  have h4 := length_seg src h1.le
  refine ⟨?_, le_max_right _ _, by omega, min_le_right _ _⟩
  rw [← List.length_pos_iff, h4]
  omega

lemma FreshOk.step (hfr : FreshOk B knownEnd c f stored offset (offset + src.length)) {n : ℕ}
    (hn : n ∈ blocksOf B offset (offset + src.length)) (ho : offset ≤ c.length)
    {c' : List UInt8} {f' : FileView} (hlen : c'.length = max c.length (segFrom B offset n))
    (hmono : ∀ b, f'.blocks b = none → f.blocks b = none) (hb : f'.blocks (toInt n) = none)
    (hst : stored n = true) (hk : knownEnd ≤ n * B) : c'.length ≤ n * B := by
  have h1 := hfr n hn (hmono _ hb) hst hk
  rw [hlen, segFrom]
  omega

/-- **A write of the view is a write of the contents.** -/
theorem Holds.writeBlocks (h : Holds B c f) (hB : 0 < B) (hs : src ≠ []) (ho : offset ≤ c.length)
    (hbig : (Bytes.write c offset src).length ≤ 2 ^ 32 * B)
    (hfr : FreshOk B knownEnd c f stored offset (offset + src.length)) :
    Holds B (Bytes.write c offset src) (f.writeBlocks B knownEnd stored offset src) := by
  rw [Bytes.length_write _ _ hs] at hbig
  refine writeBlocks_induction hB hs ho (fun n hn c' f' hP hlen hmono => ?_) h
  obtain ⟨g1, g2, g3, g4⟩ := seg_facts hB hs hn
  have g5 : segTo B (offset + src.length) n ≤ offset + src.length := min_le_left _ _
  exact hP.writeBlock g1 (by omega) g2 (by omega) (by omega) (hfr.step hn ho hlen hmono)

/-- What is in a clean block stays in the backing file. -/
theorem Clean.writeBlocks (h : Clean B c f) (hB : 0 < B) (hs : src ≠ []) (ho : offset ≤ c.length)
    (hbig : (Bytes.write c offset src).length ≤ 2 ^ 32 * B) :
    Clean B (Bytes.write c offset src) (f.writeBlocks B knownEnd stored offset src) := by
  rw [Bytes.length_write _ _ hs] at hbig
  refine writeBlocks_induction hB hs ho (fun n hn c' f' hP hlen _ => ?_) h
  obtain ⟨g1, g2, g3, g4⟩ := seg_facts hB hs hn
  have g5 : segTo B (offset + src.length) n ≤ offset + src.length := min_le_left _ _
  exact hP.writeBlock g1 (by omega) g2 (by omega) (by omega)

/-- Readable ends stay in their blocks. -/
theorem Bounded.writeBlocks (h : Bounded B f) (hB : 0 < B) (hs : src ≠ [])
    (ho : offset ≤ c.length) :
    Bounded B (f.writeBlocks B knownEnd stored offset src) := by
  refine writeBlocks_induction (P := fun _ f => Bounded B f) (c := c) hB hs ho
    (fun n hn c' f' hP _ _ => ?_) h
  obtain ⟨g1, g2, g3, g4⟩ := seg_facts hB hs hn
  exact hP.writeBlock g1 g2 (by omega)

/-- A write keeps the view tight. -/
theorem Tight.writeBlocks (h : Tight B c f) (hc : Holds B c f) (hB : 0 < B) (hs : src ≠ [])
    (ho : offset ≤ c.length) (hbig : (Bytes.write c offset src).length ≤ 2 ^ 32 * B)
    (hfr : FreshOk B knownEnd c f stored offset (offset + src.length)) :
    Tight B (Bytes.write c offset src) (f.writeBlocks B knownEnd stored offset src) := by
  rw [Bytes.length_write _ _ hs] at hbig
  refine (writeBlocks_induction (P := fun c f => Holds B c f ∧ Tight B c f) hB hs ho
    (fun n hn c' f' hP hlen hmono => ?_) ⟨hc, h⟩).2
  obtain ⟨g1, g2, g3, g4⟩ := seg_facts hB hs hn
  have g5 : segTo B (offset + src.length) n ≤ offset + src.length := min_le_left _ _
  exact ⟨hP.1.writeBlock g1 (by omega) g2 (by omega) (by omega) (hfr.step hn ho hlen hmono),
    hP.2.writeBlock hP.1 g1 (by omega) g2 (by omega) (by omega) (hfr.step hn ho hlen hmono)⟩

/-- A write inside contents that end with a full block keeps the blocks snug, whatever the backing
file has past the end. -/
theorem Snug.writeBlocks (h : Snug B c f) (hc : Holds B c f) (hB : 0 < B) (hs : src ≠ [])
    (hin : offset + src.length ≤ c.length) (hdvd : B ∣ c.length) (hbig : c.length ≤ 2 ^ 32 * B)
    (hfr : FreshOk B knownEnd c f stored offset (offset + src.length)) :
    Snug B (Bytes.write c offset src) (f.writeBlocks B knownEnd stored offset src) := by
  have hpos : 0 < src.length := List.length_pos_of_ne_nil hs
  refine (writeBlocks_induction (P := fun c f => Holds B c f ∧ Snug B c f) hB hs (by omega)
    (fun n hn c' f' hP hlen hmono => ?_) ⟨hc, h⟩).2
  obtain ⟨g1, g2, g3, g4⟩ := seg_facts hB hs hn
  have g5 : segTo B (offset + src.length) n ≤ offset + src.length := min_le_left _ _
  have g6 := hfr.step hn (by omega) hlen hmono
  have hblock : (n + 1) * B ≤ c'.length := by
    obtain ⟨k, hk⟩ := hdvd
    have hlt : n * B < k * B := by
      rw [mul_comm k, ← hk]
      exact lt_of_lt_of_le ((mem_blocksOf hB (by omega)).mp hn).1 hin
    have hle := Nat.mul_le_mul_right B (Nat.succ_le_of_lt (Nat.lt_of_mul_lt_mul_right hlt))
    rw [Nat.succ_eq_add_one, mul_comm k, ← hk] at hle
    omega
  exact ⟨hP.1.writeBlock g1 (by omega) g2 (by omega) (by omega) g6,
    hP.2.writeBlock hP.1 g1 (by omega) g2 (by omega) (by omega) (.inr hblock) g6⟩

/-- The resident blocks have ids of a kind. -/
def Ids (Q : ℤ → Prop) (f : FileView) : Prop := ∀ b, f.blocks b ≠ none → Q b

/-- A write to blocks that have such ids. -/
theorem Ids.writeBlocks {Q : ℤ → Prop} (h : Ids Q f) (hB : 0 < B) (hs : src ≠ [])
    (hQ : ∀ n : ℕ, n * B < offset + src.length → Q (toInt n)) :
    Ids Q (f.writeBlocks B knownEnd stored offset src) := by
  refine writeBlocks_induction (P := fun _ f => Ids Q f) (c := List.replicate offset 0) hB hs
    (by simp) (fun n hn c' f' hP _ _ b hb => ?_) h
  have hpos : 0 < src.length := List.length_pos_of_ne_nil hs
  by_cases hbn : b = toInt n
  · rw [hbn]
    exact hQ n ((mem_blocksOf hB (by omega)).mp hn).1
  · rw [blocks_writeBlock_ne hbn] at hb
    exact hP b hb

/-- The resident blocks have the numbers of the first `2^31` blocks. -/
def Numbered (f : FileView) : Prop := ∀ b, f.blocks b ≠ none → 0 ≤ b

/-- The ids of the first `2^31` blocks. -/
lemma toInt_nonneg {stop n : ℕ} (hstop : stop ≤ 2 ^ 31 * B) (hn : n * B < stop) : 0 ≤ toInt n := by
  rw [toInt_of_lt (Nat.lt_of_mul_lt_mul_right (hn.trans_le hstop))]
  exact Int.natCast_nonneg n

/-- A write below a bound keeps the backing file below it. -/
theorem length_disk_writeBlocks (hB : 0 < B) (hs : src ≠ []) {N : ℕ} (h : f.disk.length ≤ N)
    (hstop : offset + src.length ≤ N) :
    (f.writeBlocks B knownEnd stored offset src).disk.length ≤ N := by
  refine writeBlocks_induction (P := fun _ f => f.disk.length ≤ N) (c := List.replicate offset 0) hB
    hs (by simp) (fun n hn c' f' hP _ _ => ?_) h
  obtain ⟨g1, g2, g3, g4⟩ := seg_facts hB hs hn
  have g5 : segTo B (offset + src.length) n ≤ offset + src.length := min_le_left _ _
  rw [FileView.writeBlock]
  split
  · exact hP
  · split_ifs
    · exact hP
    · dsimp only
      rw [Bytes.length_write _ _ g1]
      omega

/-- When every block is resident or stored, the backing file stays as it is. -/
lemma disk_writeBlocks (hst : ∀ n ∈ blocksOf B offset (offset + src.length), stored n = true) :
    (f.writeBlocks B knownEnd stored offset src).disk = f.disk := by
  have key : ∀ (l : List ℕ) (f' : FileView), (∀ n ∈ l, stored n = true) →
      (l.foldl (fun f n => f.writeBlock B knownEnd (stored n) n (segFrom B offset n - n * B)
        (seg B offset src n)) f').disk = f'.disk := by
    intro l
    induction l with
    | nil => exact fun _ _ => rfl
    | cons n l ih =>
        intro f' hl
        rw [List.foldl_cons, ih _ (fun m hm => hl m (List.mem_cons_of_mem _ hm)),
          disk_writeBlock (.inr (hl n List.mem_cons_self))]
  exact key _ f hst

end

end FileView

end LazyFS
