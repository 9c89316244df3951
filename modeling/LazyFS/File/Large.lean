import LazyFS.File.Ops

/-!
Files of any size, read and written in their first `2^32 - 1` blocks.

* `FileView.span`: the positions of these blocks; each of them has an `int` of its own, and one is
  left.
* `FileView.Whole`: the resident blocks and the backing file are the contents as far as that.
* `Whole.writeAt`, `Whole.resize`, `Whole.cleaned`: writes, growing truncations and write-backs keep
  it.
* `Whole.read`: a read returns the contents.
-/

namespace LazyFS

namespace FileView

variable {B offset : ℕ} {c disk' src : List UInt8} {f : FileView} {s : FileView × ℕ}

/-- The positions of the first `2^32 - 1` blocks. -/
def span (B : ℕ) : ℕ := (2 ^ 32 - 1) * B

lemma span_lt (hB : 0 < B) : span B < 2 ^ 32 * B := by
  rw [span]
  omega

/-- The resident blocks and the backing file are the contents `c` in their first blocks, and nothing
is stored past the end of `c` when it is among these. -/
structure Whole (B : ℕ) (c : List UInt8) (f : FileView) : Prop where
  bounded : Bounded B f
  holds : Holds B (c.take (span B)) f
  blocks : Snug B (c.take (span B)) f
  disk_le : c.length ≤ span B → f.disk.length ≤ c.length

/-- A file without blocks. -/
lemma Whole.bare (B : ℕ) (c : List UInt8) : Whole B c (.bare c) := by
  refine ⟨bounded_bare, fun i hi => ?_, fun _ _ hv => (by cases hv), fun _ => le_rfl⟩
  rw [List.length_take] at hi
  rw [at_none (f := .bare c) rfl, List.getElem?_take_of_lt (by omega)]
  rfl

/-- A file that is not larger than the span. -/
lemma Whole.tight (h : Whole B c f) (hle : c.length ≤ span B) : Holds B c f ∧ Tight B c f := by
  have h1 := h.holds
  have h2 := h.blocks
  rw [List.take_of_length_le hle] at h1 h2
  exact ⟨h1, h.disk_le hle, h2⟩

lemma Whole.of_tight (hb : Bounded B f) (h : Holds B c f) (ht : Tight B c f)
    (hle : c.length ≤ span B) : Whole B c f := by
  refine ⟨hb, ?_, ?_, fun _ => ht.disk_le⟩ <;> rw [List.take_of_length_le hle]
  · exact h
  · exact ht.blocks

/-- A write inside the first part of a sequence is a write to that part. -/
lemma take_write {n : ℕ} (h : offset + src.length ≤ n) (hn : n ≤ c.length) :
    (Bytes.write c offset src).take n = Bytes.write (c.take n) offset src := by
  have hlen : (c.take n).length = n := List.length_take_of_le hn
  have hwc := Bytes.length_write_of_le c offset src (by omega)
  have hwk := Bytes.length_write_of_le (c.take n) offset src (by omega)
  refine Bytes.eq_of_agree (by rw [List.length_take, hwc, hwk, hlen]; omega) fun i _ hi => ?_
  rw [List.length_take] at hi
  rw [List.getElem?_take_of_lt (by omega)]
  by_cases hin : offset ≤ i ∧ i < offset + src.length
  · rw [Bytes.getElem?_write_of_mem _ hin.1 hin.2, Bytes.getElem?_write_of_mem _ hin.1 hin.2]
  · rw [Bytes.getElem?_write_of_not_mem _ (by omega) (by omega),
      Bytes.getElem?_write_of_not_mem _ (by omega) (by omega), List.getElem?_take_of_lt (by omega)]

/-- **A write** in the first blocks. -/
theorem Whole.writeAt (h : Whole B c s.1) (hB : 0 < B) (hs : src ≠ [])
    (hstop : offset + src.length ≤ span B) :
    Whole B (Bytes.write c offset src) (FileView.writeAt B c.length offset src s).1 := by
  have hlen := Bytes.length_write c offset hs
  have hspan := span_lt hB
  rcases Nat.lt_or_ge (span B) c.length with hbig | hle
  · -- the write does not reach the end of the file
    have hk : (c.take (span B)).length = span B := List.length_take_of_le hbig.le
    have hwk : (Bytes.write (c.take (span B)) offset src).length = span B := by
      rw [Bytes.length_write_of_le _ _ _ (by omega), hk]
    have hfresh : FreshFree B c.length (c.take (span B)) s offset (offset + src.length) := by
      intro n hn _ _ hknown
      obtain ⟨hlt, -⟩ :=
        (mem_blocksOf hB (Nat.lt_add_of_pos_right (List.length_pos_iff.mpr hs))).mp hn
      omega
    rw [FileView.writeAt, FileView.fillTo, if_neg (by omega)]
    refine ⟨h.bounded.writeAll hB hs, ?_, ?_, fun hle => by omega⟩ <;> rw [take_write hstop hbig.le]
    · exact h.holds.writeAll hB hs (by omega) (by omega) hfresh
    · exact h.blocks.writeAll h.holds hB hs (by omega) (by rw [hk]; exact Nat.dvd_mul_left _ _)
        (by omega) hfresh
  · obtain ⟨hh, ht⟩ := h.tight hle
    exact .of_tight (h.bounded.writeAt hB hs) (hh.writeAt hB hs (by omega))
      (ht.writeAt hh hB hs (by omega)) (by omega)

/-- **A truncation that grows** a file of the first blocks, or leaves a file as it is. -/
theorem Whole.resize (h : Whole B c s.1) (hB : 0 < B) {n : ℕ}
    (hn : n = c.length ∨ c.length ≤ n ∧ n ≤ span B) :
    Whole B (Bytes.resize c n) (FileView.fillTo B c.length n s).1 := by
  have hspan := span_lt hB
  rcases hn with rfl | ⟨hgrow, hle⟩
  · rw [FileView.fillTo, if_neg (lt_irrefl _), Bytes.resize_length]
    exact h
  · obtain ⟨hh, ht⟩ := h.tight (hgrow.trans hle)
    exact .of_tight (h.bounded.fillTo hB) (hh.resize hB (by omega))
      (ht.resize hh hB (by omega) (by omega)) (by rw [Bytes.length_resize]; exact hle)

/-- **A write-back**, whatever becomes of its calls. -/
theorem Whole.cleaned (h : Whole B c f) (hB : 0 < B) (hF : Flushed B f disk') {d : List UInt8}
    (hd : d = disk' ∨ d = Bytes.resize disk' c.length) : Whole B c (f.cleaned d) := by
  have hspan := span_lt hB
  have hlen := List.length_take (i := span B) (l := c)
  have hP : Plain B (c.take (span B)) f := h.blocks.plain (by omega)
  have hkept : Holds B (c.take (span B)) (f.cleaned disk') := h.holds.cleaned hP hF (.inl rfl)
  refine ⟨h.bounded.cleaned _, fun i hi => ?_, fun b v hv => ?_, fun hle => ?_⟩
  · -- a position of the contents is there before the truncation, and it stays
    have hat := hkept i hi
    rcases hd with rfl | rfl
    · exact hat
    cases hv : f.blocks (toInt (i / B : ℕ)) with
    | some v =>
        rw [at_some (by rw [blocks_cleaned, hv]; rfl)] at hat ⊢
        exact hat
    | none =>
        rw [at_none (by rw [blocks_cleaned, hv]; rfl)] at hat ⊢
        have hdisk : i < disk'.length := by
          rw [List.getElem?_eq_getElem hi] at hat
          exact (List.getElem?_eq_some_iff.mp hat).1
        exact (Bytes.getElem?_resize_of_lt _ (by omega) hdisk).trans hat
  · rw [blocks_cleaned, Option.map_eq_some_iff] at hv
    obtain ⟨w, hw, rfl⟩ := hv
    exact h.blocks b w hw
  · rcases hd with rfl | rfl
    · -- no block is written past the end of the contents
      refine hF.length_le _ (h.disk_le hle) fun b v hv _ => ?_
      obtain ⟨n, rfl, -, hn⟩ := (h.tight hle).2.blocks b v hv
      have hid : toInt n * (B : ℤ) ≤ n * B :=
        mul_le_mul_of_nonneg_right (toInt_le n) (Int.natCast_nonneg B)
      omega
    · exact (Bytes.length_resize _ _).le

/-! ### A read of the first blocks -/

/-- A read that ends before the end of the file does not depend on where that end is. -/
lemma read_of_le {size size' n : ℕ} (hB : 0 < B) (hn : 0 < n) (h : offset + n ≤ size)
    (h' : offset + n ≤ size') (buf : Mem) :
    f.read B size offset n buf = f.read B size' offset n buf := by
  have hturns : ∀ (l : List ℕ), (∀ m ∈ l, m * B < offset + n) → ∀ s : ReadView,
      f.readTurns B size offset (offset + n) l s = f.readTurns B size' offset (offset + n) l s := by
    intro l
    induction l with
    | nil => intro _ _; rfl
    | cons m l ih =>
        intro hl s
        have hm := hl m List.mem_cons_self
        have hturn : f.readTurn B size offset (offset + n) m s
            = f.readTurn B size' offset (offset + n) m s := by
          rw [readTurn, readTurn, if_neg (show ¬ size < m * B by omega),
            if_neg (show ¬ size' < m * B by omega)]
          simp only [show m * B < size by omega, show m * B < size' by omega]
        rw [readTurns, readTurns, hturn]
        congr 1
        funext r
        rw [ih (fun k hk => hl k (List.mem_cons_of_mem _ hk))]
  rw [FileView.read, FileView.read, if_neg (show ¬ size ≤ offset by omega),
    if_neg (show ¬ size' ≤ offset by omega), hturns _ fun m hm =>
      ((mem_blocksOf hB (by omega)).mp hm).1]

/-- The blocks of the first part of a larger file are read to its end. -/
lemma Snug.clamped (h : Snug B c f) (hbig : c.length < 2 ^ 32 * B) (hdvd : B ∣ c.length) :
    Clamped B c f := by
  refine ⟨fun n v hn hv => ?_, fun n h1 h2 _ => ?_⟩
  · obtain ⟨m, hm, hm1, hm2⟩ := h _ v hv
    have hn' : n < 2 ^ 32 := lt_of_mul_lt_mul_right (hn.trans_lt hbig) (Nat.zero_le B)
    have hm' : m < 2 ^ 32 := lt_of_mul_lt_mul_right (hm1.trans hbig) (Nat.zero_le B)
    obtain rfl : n = m := toInt_inj hn' hm' hm
    exact ⟨hm1, hm2⟩
  · obtain ⟨k, hk⟩ := hdvd
    rw [hk, mul_comm B] at h1 h2
    have := Nat.lt_of_mul_lt_mul_right h1
    have := Nat.lt_of_mul_lt_mul_right h2
    omega

/-- **A read** of the first blocks returns the contents. -/
theorem Whole.read (h : Whole B c f) (hB : 0 < B) {n : ℕ} (hn : 0 < n)
    (hstop : offset + n ≤ span B) (buf : Mem) :
    ∃ buf', f.read B c.length offset n buf = some (min n (c.length - offset), buf') ∧
      buf'.read 0 (min n (c.length - offset)) = Bytes.slice c offset n := by
  have hspan := span_lt hB
  rcases Nat.lt_or_ge (span B) c.length with hbig | hle
  · have hk : (c.take (span B)).length = span B := List.length_take_of_le hbig.le
    have hcl : Clamped B (c.take (span B)) f :=
      h.blocks.clamped (by omega) (by rw [hk]; exact Nat.dvd_mul_left _ _)
    obtain ⟨buf', hread, hbuf⟩ : ∃ buf', f.read B (c.take (span B)).length offset n buf
          = some (min n ((c.take (span B)).length - offset), buf') ∧
        buf'.read 0 (min n ((c.take (span B)).length - offset))
          = Bytes.slice (c.take (span B)) offset n := h.holds.read h.bounded hcl hB hn buf
    have hcount : min n ((c.take (span B)).length - offset) = min n (c.length - offset) := by
      rw [hk]
      omega
    have hslice : Bytes.slice (c.take (span B)) offset n = Bytes.slice c offset n := by
      rw [Bytes.slice, Bytes.slice, List.drop_take, List.take_take, min_eq_left (by omega)]
    rw [hcount] at hread hbuf
    rw [hslice] at hbuf
    have hwithin : offset + n ≤ (c.take (span B)).length := by omega
    exact ⟨buf', by rw [read_of_le hB hn (by omega) hwithin, hread], hbuf⟩
  · obtain ⟨hh, ht⟩ := h.tight hle
    exact hh.read h.bounded (ht.clamped (by omega)) hB hn buf

end FileView

end LazyFS
