import LazyFS.Model.FileOps
import LazyFS.File.View

/-!
The block arithmetic of `lfs_read` and `lfs_write`, in terms of the positions of a request, and
the block that `lfs_write` stores when it was not resident.

* `lastByte_eq`, `blkRange_eq`, `blkReadableFrom_eq`, `blkReadableTo_eq`: the indices of the code
  are those of `blocksOf`, `segFrom` and `segTo`.
* `cacheBuf_direct`, `cacheBuf_merged`: the block put is the bytes that were found with the
  segment written into them.
-/

namespace LazyFS

namespace FS

variable {cfg : Config} {size offset cur : ℕ}

lemma lastByte_eq (hs : 0 < size) (hw : offset + size ≤ 2 ^ 64) :
    lastByte size offset = offset + size - 1 := by
  rw [lastByte]
  omega

lemma blkRange_eq (hs : 0 < size) (hw : offset + size ≤ 2 ^ 64) :
    blkRange cfg size offset = blocksOf cfg.ioBlockSize offset (offset + size) := by
  rw [blkRange, blkHigh, lastByte_eq hs hw, blkLow, blocksOf]

/-- The first block of a request is the one of its offset. -/
lemma lt_of_ne_blkLow (hB : 0 < cfg.ioBlockSize)
    (hc : cur ∈ blocksOf cfg.ioBlockSize offset (offset + size)) (h : cur ≠ blkLow cfg offset) :
    offset ≤ cur * cfg.ioBlockSize := by
  rw [blocksOf, List.mem_range'_1] at hc
  rw [blkLow] at h
  exact ((Nat.div_lt_iff_lt_mul hB).mp (show offset / cfg.ioBlockSize < cur by omega)).le

lemma blkReadableFrom_eq (hB : 0 < cfg.ioBlockSize)
    (hc : cur ∈ blocksOf cfg.ioBlockSize offset (offset + size)) :
    blkReadableFrom cfg offset cur
      = ((segFrom cfg.ioBlockSize offset cur - cur * cfg.ioBlockSize : ℕ) : ℤ) := by
  rw [blkReadableFrom, segFrom]
  split_ifs with h
  · have h1 := Nat.div_add_mod offset cfg.ioBlockSize
    rw [blkLow] at h
    rw [← h, mul_comm] at h1
    omega
  · have h1 := lt_of_ne_blkLow hB hc h
    omega

lemma blkReadableTo_eq (hB : 0 < cfg.ioBlockSize) (hs : 0 < size) (hw : offset + size ≤ 2 ^ 64)
    (hc : cur ∈ blocksOf cfg.ioBlockSize offset (offset + size)) (dataAllocated : ℤ) :
    blkReadableTo cfg size offset cur dataAllocated
      = segTo cfg.ioBlockSize (offset + size) cur - cur * cfg.ioBlockSize - 1 := by
  obtain ⟨h1, h2⟩ := (mem_blocksOf hB (by omega)).mp hc
  have hn1 : (cur + 1) * cfg.ioBlockSize = cur * cfg.ioBlockSize + cfg.ioBlockSize := by
    rw [Nat.add_mul, one_mul]
  have hhigh : cur = blkHigh cfg size offset ↔ offset + size ≤ (cur + 1) * cfg.ioBlockSize := by
    rw [blkHigh, lastByte_eq hs hw]
    constructor
    · intro h
      have := (Nat.div_lt_iff_lt_mul hB).mp
        (show (offset + size - 1) / cfg.ioBlockSize < cur + 1 by omega)
      omega
    · intro h
      exact (Nat.div_eq_of_lt_le (by omega) (by omega)).symm
  rw [blkReadableTo, segTo]
  by_cases h : cur = blkHigh cfg size offset
  · have h3 := hhigh.mp h
    obtain hdiv := Nat.div_add_mod (offset + size - 1) cfg.ioBlockSize
    have hq : (offset + size - 1) / cfg.ioBlockSize = cur := by
      rw [h, blkHigh, lastByte_eq hs hw]
    rw [hq, mul_comm] at hdiv
    rw [if_pos h, lastByte_eq hs hw]
    omega
  · have h3 : ¬ offset + size ≤ (cur + 1) * cfg.ioBlockSize := fun h3 => h (hhigh.mpr h3)
    have h4 : ¬ (cur = blkLow cfg offset ∧ lastByte size offset < cfg.ioBlockSize) := by
      rintro ⟨-, h4⟩
      rw [lastByte_eq hs hw] at h4
      omega
    have h5 : cur < blkHigh cfg size offset := by
      rw [blkHigh, lastByte_eq hs hw]
      exact (Nat.le_div_iff_mul_le hB).mpr (by rw [Nat.succ_eq_add_one]; omega)
    rw [if_neg h, if_neg h4, if_pos h5]
    omega

/-! ### The block that is stored -/

/-- A part of a buffer. -/
lemma slice_read (m : Mem) {size a n : ℕ} (h : a + n ≤ size) :
    Bytes.slice (m.read 0 size) a n = m.read a n := by
  refine List.ext_getElem? fun k => ?_
  by_cases hk : k < n
  · rw [Bytes.getElem?_slice _ hk, Mem.getElem?_read _ _ (by omega), Mem.getElem?_read _ _ hk]
    congr 2
    omega
  · rw [List.getElem?_eq_none (by simp; omega), List.getElem?_eq_none (by simpa using hk)]

variable (cfg) in
/-- The caller's bytes for a block. -/
lemma seg_read (m : Mem) (hs : 0 < size) (hB : 0 < cfg.ioBlockSize)
    (hc : cur ∈ blocksOf cfg.ioBlockSize offset (offset + size)) :
    (m.shift ((segFrom cfg.ioBlockSize offset cur - offset : ℕ) : ℤ)).read 0
        (segTo cfg.ioBlockSize (offset + size) cur - segFrom cfg.ioBlockSize offset cur)
      = seg cfg.ioBlockSize offset (m.read 0 size) cur := by
  obtain ⟨h1, h2⟩ := (mem_blocksOf hB (by omega)).mp hc
  have h3 : segTo cfg.ioBlockSize (offset + size) cur ≤ offset + size := min_le_left _ _
  have h4 : offset ≤ segFrom cfg.ioBlockSize offset cur := le_max_left _ _
  have h5 := segFrom_lt_segTo (by omega) h1 h2 hB
  rw [seg, Mem.length_read, slice_read m (by omega), Mem.read_shift, add_zero]

/-- Without old bytes the caller's bytes are put as they are. -/
lemma cacheBuf_direct (w : WriteCtx) {needsPread : Bool} {pread : ℤ × List UInt8}
    (h : needsPread = false ∨ pread.1 = 0) (iter readableFrom readableTo : ℤ) :
    cacheBuf cfg w needsPread pread iter readableFrom readableTo
      = ⟨w.buf.shift iter, (readableTo - readableFrom + 1).toNat, readableFrom, readableTo⟩ := by
  rw [cacheBuf, if_pos h]

/-- The caller's bytes written into what was found of the block. -/
lemma cacheBuf_merged (w : WriteCtx) {pr : List UInt8} (hpr : pr ≠ []) {iter : ℤ} {off len : ℕ}
    (hlen : 0 < len) {bp : BlockPut}
    (hbp : bp = cacheBuf cfg w true (pr.length, pr) iter off (off + len - 1)) :
    bp.offStart = 0 ∧ bp.len = max pr.length (off + len) ∧ bp.rsTo = bp.len - 1 ∧
      bp.data.read 0 bp.len = Bytes.write pr off ((w.buf.shift iter).read 0 len) := by
  have hpos : 0 < pr.length := List.length_pos_of_ne_nil hpr
  have hsne : (w.buf.shift iter).read 0 len ≠ [] := by
    rw [← List.length_pos_iff, Mem.length_read]
    exact hlen
  rw [cacheBuf, if_neg (by simp; omega)] at hbp
  have hmax : (max (pr.length : ℤ) (off + len - 1 + 1)).toNat = max pr.length (off + len) := by
    omega
  have hblen : bp.len = max pr.length (off + len) := by rw [hbp]; exact hmax
  refine ⟨by rw [hbp], hblen, by rw [hblen, hbp]; dsimp only; omega, ?_⟩
  refine List.ext_getElem? fun k => ?_
  by_cases hk : k < max pr.length (off + len)
  · rw [Mem.getElem?_read _ _ (by omega), zero_add]
    have hseg : ∀ hin : off ≤ k ∧ k < off + len,
        (Bytes.write pr off ((w.buf.shift iter).read 0 len))[k]?
          = some (w.buf (iter + (k - off))) := by
      intro hin
      rw [Bytes.getElem?_write_of_mem _ hin.1 (by rw [Mem.length_read]; exact hin.2),
        Mem.getElem?_read _ _ (by omega), zero_add, Mem.shift]
      congr 2
      omega
    -- the three layers of the block buffer, from the last one in
    have hdata : bp.data k = if 0 < (off : ℤ) - pr.length ∧ pr.length ≤ k ∧ k < off then 0
        else if off ≤ k ∧ k < off + len then w.buf (iter + (k - off))
        else (Mem.ofList pr) k := by
      have hcopy : ∀ i j : ℤ, i = j → w.buf i = w.buf j := fun i j hij => by rw [hij]
      have hold : ∀ i j : ℤ, i = j → (Mem.ofList pr) i = (Mem.ofList pr) j := fun i j hij => by
        rw [hij]
      rw [hbp]
      dsimp only
      by_cases hgap : 0 < (off : ℤ) - pr.length
      · rw [if_pos hgap]
        simp only [memset, memcpy]
        split_ifs <;> first | rfl | omega | exact hcopy _ _ (by omega) | exact hold _ _ (by omega)
      · rw [if_neg hgap]
        simp only [memcpy]
        split_ifs <;> first | rfl | omega | exact hcopy _ _ (by omega) | exact hold _ _ (by omega)
    rw [hdata]
    by_cases hin : off ≤ k ∧ k < off + len
    · rw [if_neg (by omega), if_pos hin, hseg hin]
    · by_cases hold : k < pr.length
      · rw [if_neg (by omega), if_neg hin, Bytes.getElem?_write_of_not_mem _
          (by rw [Mem.length_read]; omega) hold, Mem.ofList, if_pos (by omega), Int.toNat_natCast,
          List.getD_eq_getElem?_getD, List.getElem?_eq_getElem hold, Option.getD_some]
      · rw [if_pos (by omega), Bytes.getElem?_write_gap _ hsne (by omega) (by omega)]
  · rw [List.getElem?_eq_none (by simp; omega), List.getElem?_eq_none]
    rw [Bytes.length_write _ _ hsne, Mem.length_read]
    omega

end FS

end LazyFS
