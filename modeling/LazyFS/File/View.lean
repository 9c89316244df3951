import LazyFS.Model.Config
import LazyFS.Support.Bytes

/-!
One file, abstractly: its resident blocks and its bytes in the backing file system.

* `BlockView`, `FileView`: what is left of a page and of a cache when the page numbers are
  forgotten.
* `FileView.writeBlock`, `FileView.writeBlocks`: one write, block by block; a block is overwritten
  in its page, stored in a new page or written through.
* `FileView.Holds`: the file has the contents `c`; `FileView.Tight`: nothing past the end of `c` is
  stored anywhere.
* `holds_writeBlocks`, `tight_writeBlocks`: a write of the view is a write of the contents.
-/

namespace LazyFS

/-- A resident block: its bytes, the last byte that may be read and the dirty flag. -/
structure BlockView where
  bytes : List UInt8
  readableTo : ℤ
  dirty : Bool

namespace BlockView

/-- The block of a page that was just handed out. -/
def zero (B : ℕ) : BlockView := ⟨List.replicate B 0, 0, false⟩

/-- A block after a part of it is written. -/
def overwrite (v : BlockView) (off : ℕ) (seg : List UInt8) : BlockView :=
  ⟨Bytes.write v.bytes off seg, max v.readableTo (off + seg.length - 1), true⟩

/-- Writing a new block with or without the zeros before the offset. -/
lemma overwrite_zero (B off : ℕ) {seg : List UInt8} (hs : seg ≠ []) (h : off + seg.length ≤ B) :
    (zero B).overwrite 0 (Bytes.write [] off seg) = (zero B).overwrite off seg := by
  rw [overwrite, overwrite, zero]
  dsimp only
  rw [Bytes.write_zeros B off seg h, Bytes.length_write _ _ hs, List.length_nil]
  congr 2
  omega

end BlockView

/-- A file: its resident blocks and its bytes in the backing file system. -/
structure FileView where
  blocks : ℤ → Option BlockView
  disk : List UInt8

namespace FileView

/-- The file with one block resident. -/
def setBlock (f : FileView) (b : ℤ) (v : BlockView) : FileView :=
  { f with blocks := Function.update f.blocks b (some v) }

/-- What is read of a block from the backing file before the block is stored, when the block starts
before the end that the caller knows. -/
def found (f : FileView) (B knownEnd n : ℕ) : List UInt8 :=
  if n * B < knownEnd then Bytes.slice f.disk (n * B) B else []

/-- The part `seg` of a write that falls into block `n`, at `off`; `stored` says whether a block
that is not resident finds a page. -/
def writeBlock (B knownEnd : ℕ) (stored : Bool) (n off : ℕ) (seg : List UInt8) (f : FileView) :
    FileView :=
  match f.blocks (toInt n) with
  | some v => f.setBlock (toInt n) (v.overwrite off seg)
  | none =>
      if stored then
        f.setBlock (toInt n)
          ((BlockView.zero B).overwrite 0 (Bytes.write (f.found B knownEnd n) off seg))
      else { f with disk := Bytes.write f.disk (n * B + off) seg }

end FileView

/-! ### The blocks of a request -/

/-- The blocks that the positions `[offset, stop)` fall into. -/
def blocksOf (B offset stop : ℕ) : List ℕ :=
  List.range' (offset / B) ((stop - 1) / B + 1 - offset / B)

/-- The first position of a request in block `n`. -/
def segFrom (B offset n : ℕ) : ℕ := max offset (n * B)

/-- The end of a request in block `n`. -/
def segTo (B stop n : ℕ) : ℕ := min stop ((n + 1) * B)

/-- The part of the source that falls into block `n`. -/
def seg (B offset : ℕ) (src : List UInt8) (n : ℕ) : List UInt8 :=
  Bytes.slice src (segFrom B offset n - offset)
    (segTo B (offset + src.length) n - segFrom B offset n)

section

variable {B offset stop n : ℕ}

/-- A block of a request meets it. -/
lemma mem_blocksOf (hB : 0 < B) (h : offset < stop) :
    n ∈ blocksOf B offset stop ↔ n * B < stop ∧ offset < (n + 1) * B := by
  have h1 : offset / B ≤ (stop - 1) / B := Nat.div_le_div_right (by omega)
  rw [blocksOf, List.mem_range'_1]
  constructor
  · rintro ⟨h2, h3⟩
    have h4 : n * B ≤ stop - 1 := (Nat.le_div_iff_mul_le hB).mp (by omega)
    have h5 : offset < (n + 1) * B := (Nat.div_lt_iff_lt_mul hB).mp (by omega)
    exact ⟨by omega, h5⟩
  · rintro ⟨h2, h3⟩
    have h4 : n ≤ (stop - 1) / B := (Nat.le_div_iff_mul_le hB).mpr (by omega)
    have h5 : offset / B < n + 1 := (Nat.div_lt_iff_lt_mul hB).mpr h3
    omega

lemma segFrom_lt_segTo (h : offset < stop) (hn : n * B < stop) (ho : offset < (n + 1) * B)
    (hB : 0 < B) : segFrom B offset n < segTo B stop n := by
  have h1 : n * B < (n + 1) * B := Nat.mul_lt_mul_of_pos_right (Nat.lt_succ_self n) hB
  rw [segFrom, segTo]
  omega

lemma length_seg (src : List UInt8) (hn : n * B ≤ offset + src.length) :
    (seg B offset src n).length = segTo B (offset + src.length) n - segFrom B offset n := by
  rw [seg, Bytes.length_slice, segTo, segFrom]
  omega

/-- The source up to the end of block `n` is the source up to its start and the part in it. -/
lemma take_append_seg (src : List UInt8) (ho : offset < (n + 1) * B)
    (hn : n * B ≤ offset + src.length) (hB : 0 < B) :
    src.take (n * B - offset) ++ seg B offset src n = src.take ((n + 1) * B - offset) := by
  have h1 : n * B < (n + 1) * B := Nat.mul_lt_mul_of_pos_right (Nat.lt_succ_self n) hB
  have h2 : segFrom B offset n - offset = n * B - offset := by
    rw [segFrom]
    omega
  rw [seg, Bytes.slice, h2, ← List.take_add]
  rcases Nat.lt_or_ge ((n + 1) * B) (offset + src.length) with h3 | h3
  · congr 1
    rw [segTo, segFrom]
    omega
  · rw [List.take_of_length_le, List.take_of_length_le]
    · omega
    · rw [segTo, segFrom]
      omega

end

namespace FileView

/-- One write, block by block in ascending order. -/
def writeBlocks (B knownEnd : ℕ) (stored : ℕ → Bool) (offset : ℕ) (src : List UInt8)
    (f : FileView) :
    FileView :=
  (blocksOf B offset (offset + src.length)).foldl
    (fun f n => f.writeBlock B knownEnd (stored n) n (segFrom B offset n - n * B)
      (seg B offset src n)) f

variable {B knownEnd : ℕ} {f : FileView} {c : List UInt8}

/-- A resident block stays resident. -/
lemma blocks_of_writeBlock_none {stored : Bool} {n off : ℕ} {sg : List UInt8} {b : ℤ}
    (h : (f.writeBlock B knownEnd stored n off sg).blocks b = none) : f.blocks b = none := by
  rw [writeBlock] at h
  split at h
  · by_cases hb : b = toInt n
    · simp [setBlock, hb] at h
    · simpa [setBlock, hb] using h
  · split_ifs at h
    · by_cases hb : b = toInt n
      · simp [setBlock, hb] at h
      · simpa [setBlock, hb] using h
    · exact h

/-- **Induction over the blocks of a write.**  The contents grow block by block, without a gap, and
what is true of the contents and the view before a block is shown to be true after it. -/
theorem writeBlocks_induction (hB : 0 < B) {stored : ℕ → Bool} {offset : ℕ} {src : List UInt8}
    (hs : src ≠ []) (ho : offset ≤ c.length) {P : List UInt8 → FileView → Prop}
    (hstep : ∀ n ∈ blocksOf B offset (offset + src.length), ∀ c' f', P c' f' →
      c'.length = max c.length (segFrom B offset n) →
      (∀ b, f'.blocks b = none → f.blocks b = none) →
      P (Bytes.write c' (segFrom B offset n) (seg B offset src n))
        (f'.writeBlock B knownEnd (stored n) n (segFrom B offset n - n * B) (seg B offset src n)))
    (h0 : P c f) : P (Bytes.write c offset src) (f.writeBlocks B knownEnd stored offset src) := by
  have hpos : 0 < src.length := List.length_pos_of_ne_nil hs
  -- the blocks still to be written, from block `n` on
  have key : ∀ (k n : ℕ) (f' : FileView), offset / B ≤ n →
      n + k = (offset + src.length - 1) / B + 1 → (∀ b, f'.blocks b = none → f.blocks b = none) →
      P (Bytes.write c offset (src.take (n * B - offset))) f' →
      P (Bytes.write c offset src) ((List.range' n k).foldl (fun f n =>
        f.writeBlock B knownEnd (stored n) n (segFrom B offset n - n * B) (seg B offset src n))
          f') := by
    intro k
    induction k with
    | zero =>
        intro n f' _ hk _ hP
        have h1 : offset + src.length - 1 < n * B := (Nat.div_lt_iff_lt_mul hB).mp (by omega)
        rw [List.take_of_length_le (by omega)] at hP
        exact hP
    | succ k ih =>
        intro n f' hlo hk hmono hP
        have hmem : n ∈ blocksOf B offset (offset + src.length) := by
          rw [blocksOf, List.mem_range'_1]
          omega
        obtain ⟨hn, hn'⟩ := (mem_blocksOf hB (by omega)).mp hmem
        have htake : (src.take (n * B - offset)).length = n * B - offset := by
          rw [List.length_take]
          omega
        have hfrom : segFrom B offset n = offset + (src.take (n * B - offset)).length := by
          rw [htake, segFrom]
          omega
        have hlen : (Bytes.write c offset (src.take (n * B - offset))).length
            = max c.length (segFrom B offset n) := by
          by_cases h0 : src.take (n * B - offset) = []
          · rw [hfrom, h0, Bytes.write_nil, List.length_nil]
            omega
          · rw [Bytes.length_write _ _ h0, hfrom]
        have h1 := hstep n hmem _ f' hP hlen hmono
        rw [hfrom, Bytes.write_write, take_append_seg src hn' hn.le hB, ← hfrom] at h1
        rw [List.range'_succ, List.foldl_cons]
        exact ih (n + 1) _ (by omega) (by omega)
          (fun b hb => hmono b (blocks_of_writeBlock_none hb)) h1
  have h1 : offset / B ≤ (offset + src.length - 1) / B := Nat.div_le_div_right (by omega)
  have h2 : offset / B * B ≤ offset := Nat.div_mul_le_self offset B
  refine key _ (offset / B) f le_rfl (by omega) (fun b hb => hb) ?_
  rwa [Nat.sub_eq_zero_of_le h2, List.take_zero, Bytes.write_nil]

end FileView

end LazyFS
