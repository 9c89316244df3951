import LazyFS.Support.Bytes
import Mathlib.Tactic

/-!
Character buffers and the C library calls on them.

A buffer is a function on integer positions, so that a position outside the allocation is
visible and a negative one is not silently moved; `memcpy` and `memset` with a negative
length do nothing.

* `Mem`, `memcpy`, `memset`, `Mem.shift` (pointer arithmetic) and `Mem.ofList`;
* `Mem.read`: the `n` bytes from a position on, as a list; `read_memcpy` and `read_memset`
  are what the two calls do to it, in terms of `Bytes.write`.
-/

namespace LazyFS

/-- A character buffer. -/
abbrev Mem := ℤ → UInt8

/-- `memcpy (dst + d, src + s, len)`. -/
def memcpy (dst : Mem) (d : ℤ) (src : Mem) (s len : ℤ) : Mem :=
  fun i => if d ≤ i ∧ i < d + len then src (s + (i - d)) else dst i

/-- `memset (dst + d, c, len)`. -/
def memset (dst : Mem) (d : ℤ) (c : UInt8) (len : ℤ) : Mem :=
  fun i => if d ≤ i ∧ i < d + len then c else dst i

namespace Mem

/-- The buffer `m + k`. -/
def shift (m : Mem) (k : ℤ) : Mem := fun i => m (k + i)

/-- The buffer that holds `l` from position `0` on. -/
def ofList (l : List UInt8) : Mem := fun i => if 0 ≤ i then l.getD i.toNat 0 else 0

/-- The bytes of `m` in `[off, off + n)`. -/
def read (m : Mem) (off : ℤ) (n : ℕ) : List UInt8 :=
  (List.range n).map fun k : ℕ => m (off + (k : ℤ))

@[simp] lemma length_read (m : Mem) (off : ℤ) (n : ℕ) : (m.read off n).length = n := by
  simp [read]

lemma getElem?_read (m : Mem) (off : ℤ) {n i : ℕ} (h : i < n) :
    (m.read off n)[i]? = some (m (off + i)) := by
  simp [read, h]

lemma read_const (b : UInt8) (n : ℕ) : read (fun _ => b) 0 n = List.replicate n b := by
  rw [read, List.map_const', List.length_range]

@[simp] lemma read_zero (m : Mem) (off : ℤ) : m.read off 0 = [] := rfl

lemma read_eq_iff {m m' : Mem} {off off' : ℤ} {n : ℕ} :
    m.read off n = m'.read off' n ↔ ∀ i < n, m (off + i) = m' (off' + i) := by
  constructor
  · intro h i hi
    have h1 := getElem?_read m off hi
    rw [h, getElem?_read m' off' hi] at h1
    exact (Option.some.inj h1).symm
  · intro h
    refine List.ext_getElem? fun i => ?_
    by_cases hi : i < n
    · rw [getElem?_read m off hi, getElem?_read m' off' hi, h i hi]
    · rw [List.getElem?_eq_none (by simpa using hi), List.getElem?_eq_none (by simpa using hi)]

lemma read_shift (m : Mem) (k off : ℤ) (n : ℕ) : (m.shift k).read off n = m.read (k + off) n := by
  rw [read_eq_iff]
  intro i _
  rw [shift, add_assoc]

end Mem

/-- A copy into a page or a block buffer overwrites the bytes of its range. -/
lemma read_memcpy (dst src : Mem) (s : ℤ) {d len n : ℕ} (h : d + len ≤ n) :
    (memcpy dst d src s len).read 0 n = Bytes.write (dst.read 0 n) d (src.read s len) := by
  refine List.ext_getElem? fun i => ?_
  by_cases hi : i < n
  · rw [Mem.getElem?_read _ _ hi, memcpy]
    by_cases hm : d ≤ i ∧ i < d + len
    · rw [if_pos (by omega), Bytes.getElem?_write_of_mem _ hm.1 (by simpa using hm.2),
        Mem.getElem?_read _ _ (by omega)]
      congr 2
      omega
    · rw [if_neg (by omega), Bytes.getElem?_write_of_not_mem _ (by simp; omega) (by simpa using hi),
        Mem.getElem?_read _ _ hi]
  · rw [List.getElem?_eq_none (by simpa using hi), List.getElem?_eq_none]
    rw [Bytes.length_write_of_le _ _ _ (by simpa using h)]
    simpa using hi

/-- A copy that starts at its own position of the source reads back the source. -/
lemma read_memcpy_self (dst src : Mem) (d s : ℤ) (n : ℕ) :
    (memcpy dst d src s n).read d n = src.read s n := by
  rw [Mem.read_eq_iff]
  intro i hi
  rw [memcpy, if_pos (by omega)]
  congr 1
  omega

lemma memcpy_of_not_mem (dst src : Mem) (d s len : ℤ) {i : ℤ} (h : i < d ∨ d + len ≤ i) :
    memcpy dst d src s len i = dst i := by
  rw [memcpy, if_neg (by omega)]

lemma memset_of_not_mem (dst : Mem) (d : ℤ) (c : UInt8) (len : ℤ) {i : ℤ}
    (h : i < d ∨ d + len ≤ i) : memset dst d c len i = dst i := by
  rw [memset, if_neg (by omega)]

/-- Clearing a whole page leaves zeros. -/
lemma read_memset_zero (dst : Mem) (n : ℕ) :
    (memset dst 0 0 n).read 0 n = List.replicate n 0 := by
  refine List.ext_getElem? fun i => ?_
  by_cases hi : i < n
  · rw [Mem.getElem?_read _ _ hi, List.getElem?_replicate, if_pos hi, memset, if_pos (by omega)]
  · rw [List.getElem?_eq_none (by simpa using hi), List.getElem?_eq_none (by simpa using hi)]

end LazyFS
