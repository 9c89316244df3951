import Mathlib.Data.UInt
import Mathlib.Tactic

/-!
Byte sequences with the file semantics of POSIX: a sequence is a list over a type with a
zero, positions past the end do not exist, and growing fills with zeros.

* `write`: overwrite at an offset, a gap before the offset becoming zeros; `getElem?_write`
  and `length_write` determine it.
* `write_write`, `write_zeros`, `write_slice`: writes that are put together from others.
* `resize`: cut or grow to a length; `getElem?_resize` and `length_resize`.
* `slice`: the part read by a request `[off, off + n)`, cut at the end.
* `Agree`: two sequences coincide on an interval of positions, existence included;
  `eq_of_agree` recovers equality, and `slice_congr` says that reads go by agreement.
-/

namespace Bytes

variable {α : Type*} [Zero α]

/-- The sequence `c` with `src` written at `off`.  A gap between the end of `c` and `off` is
filled with zeros; writing nothing changes nothing. -/
def write (c : List α) (off : ℕ) (src : List α) : List α :=
  if src.isEmpty then c
  else c.take off ++ List.replicate (off - c.length) 0 ++ src ++ c.drop (off + src.length)

/-- The sequence `c` cut or zero-extended to length `n`. -/
def resize (c : List α) (n : ℕ) : List α :=
  c.take n ++ List.replicate (n - c.length) 0

omit [Zero α] in
/-- The part of `c` in `[off, off + n)`. -/
def slice (c : List α) (off n : ℕ) : List α := (c.drop off).take n

/-! ### Writing -/

@[simp] lemma write_nil (c : List α) (off : ℕ) : write c off [] = c := by simp [write]

lemma length_write (c : List α) (off : ℕ) {src : List α} (h : src ≠ []) :
    (write c off src).length = max c.length (off + src.length) := by
  rw [write, if_neg (by simpa using h)]
  simp only [List.length_append, List.length_take, List.length_replicate, List.length_drop]
  omega

/-- A write never shortens. -/
lemma length_le_length_write (c : List α) (off : ℕ) (src : List α) :
    c.length ≤ (write c off src).length := by
  by_cases h : src = []
  · simp [h]
  · rw [length_write c off h]
    exact le_max_left _ _

/-- A write inside the sequence keeps its length. -/
lemma length_write_of_le (c : List α) (off : ℕ) (src : List α) (h : off + src.length ≤ c.length) :
    (write c off src).length = c.length := by
  by_cases h0 : src = []
  · simp [h0]
  · rw [length_write c off h0]
    omega

/-- Inside the written range a write reads back its source. -/
lemma getElem?_write_of_mem (c : List α) {off : ℕ} {src : List α} {i : ℕ} (h : off ≤ i)
    (h' : i < off + src.length) : (write c off src)[i]? = src[i - off]? := by
  have hne : ¬ src.isEmpty = true := by
    intro h0
    rw [List.isEmpty_iff.mp h0] at h'
    simp at h'
    omega
  rw [write, if_neg hne]
  have hpre : (c.take off ++ List.replicate (off - c.length) (0 : α)).length = off := by
    simp only [List.length_append, List.length_take, List.length_replicate]
    omega
  rw [List.append_assoc, List.getElem?_append_right (by omega), hpre,
    List.getElem?_append_left (by omega)]

/-- Outside the written range a write changes no existing position. -/
lemma getElem?_write_of_not_mem (c : List α) {off : ℕ} {src : List α} {i : ℕ}
    (h : i < off ∨ off + src.length ≤ i) (hi : i < c.length) :
    (write c off src)[i]? = (c)[i]? := by
  by_cases h0 : src = []
  · simp [h0]
  rw [write, if_neg (by simpa using h0)]
  have hpre : (c.take off ++ List.replicate (off - c.length) (0 : α)).length = off := by
    simp only [List.length_append, List.length_take, List.length_replicate]
    omega
  rcases h with h | h
  · rw [List.append_assoc, List.getElem?_append_left (by omega),
      List.getElem?_append_left (by rw [List.length_take]; omega),
      List.getElem?_take_of_lt h]
  · rw [List.append_assoc, List.getElem?_append_right (by omega), hpre,
      List.getElem?_append_right (by omega), List.getElem?_drop]
    congr 1
    omega

/-- The gap a write leaves between the old end and its offset reads as zeros. -/
lemma getElem?_write_gap (c : List α) {off : ℕ} {src : List α} {i : ℕ} (hs : src ≠ [])
    (h : c.length ≤ i) (h' : i < off) : (write c off src)[i]? = some 0 := by
  rw [write, if_neg (by simpa using hs)]
  have hpre : (c.take off ++ List.replicate (off - c.length) (0 : α)).length = off := by
    simp only [List.length_append, List.length_take, List.length_replicate]
    omega
  rw [List.append_assoc, List.getElem?_append_left (by omega),
    List.getElem?_append_right (by rw [List.length_take]; omega),
    List.getElem?_replicate, if_pos (by rw [List.length_take]; omega)]

/-- A position after a write, where what does not exist counts as zero. -/
lemma getD_write (c : List α) (off : ℕ) {src : List α} (h : src ≠ []) (k : ℕ) :
    (write c off src).getD k 0
      = if off ≤ k ∧ k < off + src.length then src.getD (k - off) 0 else c.getD k 0 := by
  simp only [List.getD_eq_getElem?_getD]
  split_ifs with hin
  · rw [getElem?_write_of_mem c hin.1 hin.2]
  · have hout : k < off ∨ off + src.length ≤ k := by omega
    rcases Nat.lt_or_ge k c.length with hk | hk
    · rw [getElem?_write_of_not_mem c hout hk]
    · rw [List.getElem?_eq_none hk]
      rcases hout with hlt | hge
      · rw [getElem?_write_gap c h hk hlt, Option.getD_some, Option.getD_none]
      · rw [List.getElem?_eq_none (by rw [length_write c off h]; omega)]

/-- Two writes, one after the other, are one. -/
lemma write_write (c : List α) (off : ℕ) (a b : List α) :
    write (write c off a) (off + a.length) b = write c off (a ++ b) := by
  rcases eq_or_ne a [] with rfl | ha
  · simp
  rcases eq_or_ne b [] with rfl | hb
  · simp
  have hab : a ++ b ≠ [] := by simp [ha]
  refine List.ext_getElem? fun i => ?_
  by_cases hlen : i < (write c off (a ++ b)).length
  · rw [length_write c off hab, List.length_append] at hlen
    by_cases hmem : off ≤ i ∧ i < off + (a.length + b.length)
    · rw [getElem?_write_of_mem c hmem.1 (by rw [List.length_append]; exact hmem.2)]
      by_cases hi : i < off + a.length
      · rw [getElem?_write_of_not_mem _ (.inl hi) (by rw [length_write c off ha]; omega),
          getElem?_write_of_mem c hmem.1 hi, List.getElem?_append_left (by omega)]
      · rw [getElem?_write_of_mem _ (by omega) (by omega), List.getElem?_append_right (by omega)]
        congr 1
        omega
    · by_cases hi : i < c.length
      · rw [getElem?_write_of_not_mem _ (by omega) (by rw [length_write c off ha]; omega),
          getElem?_write_of_not_mem c (by omega) hi,
          getElem?_write_of_not_mem c (by rw [List.length_append]; omega) hi]
      · rw [getElem?_write_of_not_mem _ (by omega) (by rw [length_write c off ha]; omega),
          getElem?_write_gap c ha (by omega) (by omega),
          getElem?_write_gap c hab (by omega) (by omega)]
  · rw [List.getElem?_eq_none, List.getElem?_eq_none (by omega)]
    rw [length_write c off hab, List.length_append] at hlen
    rw [length_write _ _ hb, length_write c off ha]
    omega

/-- Writing into zeros, with or without the zeros before the offset. -/
lemma write_zeros (B off : ℕ) (src : List α) (h : off + src.length ≤ B) :
    write (List.replicate B 0) 0 (write [] off src) = write (List.replicate B 0) off src := by
  rcases eq_or_ne src [] with rfl | hs
  · simp
  have hlen : (write ([] : List α) off src).length = off + src.length := by
    rw [length_write _ _ hs]
    simp
  refine List.ext_getElem? fun i => ?_
  by_cases hi : i < B
  · by_cases h1 : i < off + src.length
    · rw [getElem?_write_of_mem _ (Nat.zero_le i) (by omega), Nat.sub_zero]
      by_cases h2 : off ≤ i
      · rw [getElem?_write_of_mem _ h2 h1, getElem?_write_of_mem _ h2 h1]
      · rw [getElem?_write_gap _ hs (Nat.zero_le i) (by omega),
          getElem?_write_of_not_mem _ (by omega) (by simpa using hi), List.getElem?_replicate,
          if_pos hi]
    · rw [getElem?_write_of_not_mem _ (by omega) (by simpa using hi),
        getElem?_write_of_not_mem _ (by omega) (by simpa using hi)]
  · rw [List.getElem?_eq_none, List.getElem?_eq_none]
    · rw [length_write_of_le _ _ _ (by simpa using h)]
      simpa using hi
    · rw [length_write_of_le _ _ _ (by simp; omega)]
      simpa using hi

/-! ### Resizing -/

@[simp] lemma length_resize (c : List α) (n : ℕ) : (resize c n).length = n := by
  simp only [resize, List.length_append, List.length_take, List.length_replicate]
  omega

lemma getElem?_resize_of_lt (c : List α) {n i : ℕ} (h : i < n) (hi : i < c.length) :
    (resize c n)[i]? = (c)[i]? := by
  rw [resize, List.getElem?_append_left (by rw [List.length_take]; omega),
    List.getElem?_take_of_lt h]

/-- Growing is writing zeros at the end. -/
lemma resize_eq_write (c : List α) {n : ℕ} (h : c.length < n) :
    resize c n = write c c.length (List.replicate (n - c.length) 0) := by
  have hne : ¬ (List.replicate (n - c.length) (0 : α)).isEmpty = true := by
    simp only [List.isEmpty_iff, List.replicate_eq_nil_iff]
    omega
  rw [write, if_neg hne, resize, List.take_of_length_le (by omega), List.take_length,
    List.drop_of_length_le (by omega)]
  simp

/-- Shrinking is taking a prefix. -/
lemma resize_eq_take (c : List α) {n : ℕ} (h : n ≤ c.length) : resize c n = c.take n := by
  rw [resize, Nat.sub_eq_zero_of_le h]
  simp

@[simp] lemma resize_length (c : List α) : resize c c.length = c := by
  rw [resize_eq_take c le_rfl, List.take_length]

/-- A write past the end is a zero fill up to the offset followed by a write at the end. -/
lemma write_resize (c : List α) {off : ℕ} {src : List α} (hs : src ≠ []) (h : c.length ≤ off) :
    write (resize c off) off src = write c off src := by
  have hne : ¬ src.isEmpty = true := by simpa using hs
  rw [write, write, if_neg hne, if_neg hne, length_resize,
    List.take_of_length_le (by rw [length_resize]),
    List.drop_of_length_le (by rw [length_resize]; omega),
    List.drop_of_length_le (by omega), List.take_of_length_le h, resize,
    List.take_of_length_le h]
  simp

/-! ### Slices -/

omit [Zero α] in
@[simp] lemma length_slice (c : List α) (off n : ℕ) :
    (slice c off n).length = min n (c.length - off) := by
  simp [slice]

omit [Zero α] in
lemma getElem?_slice (c : List α) {off n i : ℕ} (h : i < n) :
    (slice c off n)[i]? = (c)[off + i]? := by
  rw [slice, List.getElem?_take_of_lt h, List.getElem?_drop]

omit [Zero α] in
/-- Past the end there is nothing to read. -/
lemma slice_eq_nil (c : List α) {off : ℕ} (n : ℕ) (h : c.length ≤ off) : slice c off n = [] := by
  simp [slice, List.drop_of_length_le h]

/-- Writing back what was read at an offset, with a change inside it, is the change alone. -/
lemma write_slice (c : List α) (base n off : ℕ) (src : List α) (hne : slice c base n ≠ [])
    (hs : src ≠ []) (h : off + src.length ≤ n) :
    write c base (write (slice c base n) off src) = write c (base + off) src := by
  have hlen : (slice c base n).length = min n (c.length - base) := length_slice c base n
  have hpos : 0 < (slice c base n).length := List.length_pos_of_ne_nil hne
  have hm : (write (slice c base n) off src).length
      = max (min n (c.length - base)) (off + src.length) := by
    rw [length_write _ _ hs, hlen]
  have hmne : write (slice c base n) off src ≠ [] := by
    rw [← List.length_pos_iff, hm]
    omega
  refine List.ext_getElem? fun i => ?_
  by_cases hi : i < (write c (base + off) src).length
  · rw [length_write _ _ hs] at hi
    by_cases h1 : base ≤ i ∧ i < base + max (min n (c.length - base)) (off + src.length)
    · rw [getElem?_write_of_mem c h1.1 (by omega)]
      by_cases h2 : base + off ≤ i ∧ i < base + off + src.length
      · rw [getElem?_write_of_mem _ (by omega) (by omega), getElem?_write_of_mem _ h2.1 h2.2]
        congr 1
        omega
      · by_cases h3 : i < c.length
        · rw [getElem?_write_of_not_mem _ (by omega) (by omega),
            getElem?_write_of_not_mem _ (by omega) h3, getElem?_slice c (by omega)]
          congr 1
          omega
        · rw [getElem?_write_gap _ hs (by omega) (by omega),
            getElem?_write_gap _ hs (by omega) (by omega)]
    · by_cases h3 : i < c.length
      · rw [getElem?_write_of_not_mem _ (by omega) h3, getElem?_write_of_not_mem _ (by omega) h3]
      · omega
  · rw [List.getElem?_eq_none, List.getElem?_eq_none (by omega)]
    rw [length_write _ _ hs] at hi
    rw [length_write _ _ hmne, hm]
    omega

/-! ### Agreement on an interval -/

omit [Zero α] in
/-- `c` and `d` coincide on the positions in `[lo, hi)`, existence included. -/
def Agree (c d : List α) (lo hi : ℕ) : Prop := ∀ i, lo ≤ i → i < hi → (c)[i]? = d[i]?

omit [Zero α] in
/-- Sequences of one length that agree below it are equal. -/
lemma eq_of_agree {c d : List α} (hlen : c.length = d.length) (h : Agree c d 0 c.length) :
    c = d := by
  refine List.ext_getElem? fun i => ?_
  by_cases hi : i < c.length
  · exact h i (Nat.zero_le i) hi
  · rw [List.getElem?_eq_none (by omega), List.getElem?_eq_none (by omega)]

omit [Zero α] in
/-- Reading depends only on the positions read. -/
lemma slice_congr {c d : List α} {off n : ℕ} (h : Agree c d off (off + n)) :
    slice c off n = slice d off n := by
  refine List.ext_getElem? fun i => ?_
  by_cases hi : i < n
  · rw [getElem?_slice c hi, getElem?_slice d hi]
    exact h (off + i) (by omega) (by omega)
  · rw [List.getElem?_eq_none (by simp; omega), List.getElem?_eq_none (by simp; omega)]

end Bytes
