import LazyFS.Model.Memory
import LazyFS.File.Holds

/-!
A read of the view of a file.

* `ReadView`: the caller's buffer, how far it is filled, and the chunk of blocks that are not
  resident and wait for one `pread`.
* `FileView.readTurn`, `FileView.readTurns`, `FileView.read`: the block loop of `lfs_read` on the
  view of a file.
* `FileView.Clamped`: nothing past the end of the contents is read.
* `Holds.isSome_read`: no read of a file stops; `Holds.read`: on a clamped view a read returns the
  contents at the positions asked for.
-/

namespace LazyFS

/-- The variables of a read in progress. -/
structure ReadView where
  buf : Mem
  iter : ℕ
  chunk : ℕ
  chunkFrom : ℕ

namespace ReadView

/-- The pending chunk read from the backing file. -/
def flush (disk : List UInt8) (s : ReadView) : ReadView :=
  let found := Bytes.slice disk s.chunkFrom s.chunk
  { s with
      buf := memcpy s.buf s.iter (.ofList found) 0 found.length
      iter := s.iter + found.length }

/-- The pending chunk read, and the next one starting after block `n`. -/
def flushAt (B stop n : ℕ) (disk : List UInt8) (s : ReadView) : ReadView :=
  if 0 < s.chunk then { s.flush disk with chunk := 0, chunkFrom := (n + 1) * B }
  else if (n + 1) * B < stop then { s with chunkFrom := (n + 1) * B }
  else s

/-- A resident block copied up to its readable end; a copy of negative length stops the program. -/
def copy (B offset stop n : ℕ) (v : BlockView) (s : ReadView) : Option ReadView :=
  let readableFrom : ℤ := (segFrom B offset n - n * B : ℕ)
  let readTo := min v.readableTo (segTo B stop n - n * B - 1)
  let len := readTo - readableFrom + 1
  if len < 0 then none
  else
    let buf := memcpy s.buf s.iter (.ofList v.bytes) readableFrom len
    some { s with
      buf := if readTo < B - 1 ∧ (n + 1) * B < stop then
          memset buf (s.iter + len + readTo) 0 (B - readTo)
        else buf
      iter := s.iter + len.toNat }

end ReadView

namespace FileView

/-- One turn of a read of `[offset, stop)` on a file of a given size, `false` when the read ends. -/
def readTurn (B size offset stop n : ℕ) (f : FileView) (s : ReadView) : Option (ReadView × Bool) :=
  if size < n * B then some (s, false)
  else
    match f.blocks (toInt n) with
    | none =>
        some (if n * B < size then
          { s with chunk := s.chunk + (segTo B stop n - segFrom B offset n) } else s, true)
    | some v =>
        let s := s.flushAt B stop n f.disk
        if stop ≤ offset + s.iter then some (s, false)
        else (s.copy B offset stop n v).map fun s => (s, true)

/-- The turns of a read. -/
def readTurns (B size offset stop : ℕ) (f : FileView) : List ℕ → ReadView → Option ReadView
  | [], s => some s
  | n :: rest, s => (f.readTurn B size offset stop n s).bind fun r =>
      if r.2 then f.readTurns B size offset stop rest r.1 else some r.1

/-- The pending chunk read at the end. -/
def readEnd (f : FileView) (s : ReadView) : ReadView := if 0 < s.chunk then s.flush f.disk else s

/-- A read of `n` bytes at `offset` of a file of a given size: how many bytes were read and the
buffer after it. -/
def read (B size offset n : ℕ) (buf : Mem) (f : FileView) : Option (ℕ × Mem) :=
  if size ≤ offset then some (0, buf)
  else (f.readTurns B size offset (offset + n) (blocksOf B offset (offset + n))
    ⟨buf, 0, 0, offset⟩).map fun s => ((f.readEnd s).iter, (f.readEnd s).buf)

/-- Nothing past the end of `c` is read: a resident block that starts at or before the end of `c`
starts before it and is readable to it at most, and the backing file goes no further than `c`,
unless the last block of `c` is full or resident. -/
structure Clamped (B : ℕ) (c : List UInt8) (f : FileView) : Prop where
  blocks : ∀ n v, n * B ≤ c.length → f.blocks (toInt (n : ℕ)) = some v → n * B < c.length ∧
    n * B + (v.readableTo + 1) = min ((n + 1) * B : ℕ) c.length
  rest : ∀ n, n * B < c.length → c.length < (n + 1) * B → f.blocks (toInt (n : ℕ)) = none →
    f.disk.length ≤ c.length

/-- Nothing past the end of `c` is read by a read that ends before `stop`. -/
structure ClampedTo (B : ℕ) (c : List UInt8) (f : FileView) (stop : ℕ) : Prop where
  blocks : ∀ n v, n * B < stop → n * B ≤ c.length → f.blocks (toInt (n : ℕ)) = some v →
    n * B < c.length ∧
      min (n * B + (v.readableTo + 1)) stop = min (min ((n + 1) * B : ℕ) stop) c.length
  rest : ∀ n, n * B < c.length → c.length < (n + 1) * B → c.length < stop →
    f.blocks (toInt (n : ℕ)) = none → f.disk.length ≤ c.length

variable {B size offset stop n : ℕ} {f : FileView} {c : List UInt8}

lemma Clamped.clampedTo (h : Clamped B c f) (stop : ℕ) : ClampedTo B c f stop := by
  refine ⟨fun n v _ hn hv => ?_, fun n h1 h2 _ hnone => h.rest n h1 h2 hnone⟩
  obtain ⟨h1, h2⟩ := h.blocks n v hn hv
  exact ⟨h1, by omega⟩

/-- A read inside the contents meets nothing past their end. -/
lemma Holds.clampedTo (h : Holds B c f) (hb : Bounded B f) (hB : 0 < B) (hstop : stop ≤ c.length) :
    ClampedTo B c f stop := by
  refine ⟨fun n v hn _ hv => ⟨by omega, ?_⟩, fun n _ _ hlt => absurd hstop (by omega)⟩
  have hvB := (hb _ v hv).2.1
  have hn1 : (n + 1) * B = n * B + B := by rw [Nat.add_mul, one_mul]
  -- the last position of the read in the block
  obtain ⟨i, hi⟩ : ∃ i, i + 1 = min ((n + 1) * B) stop := ⟨min ((n + 1) * B) stop - 1, by omega⟩
  obtain ⟨hdiv, hmod⟩ := div_mod_of_mem (B := B) (n := n) (i := i) (by omega) (by omega)
  rw [← hdiv] at hv
  have hread := ((at_some hv).mp (h i (by omega))).1
  rw [hmod] at hread
  omega

/-- A tight view is clamped. -/
lemma Tight.clamped (h : Tight B c f) (hbig : c.length < 2 ^ 32 * B) : Clamped B c f := by
  refine ⟨fun n v hn hv => ?_, fun _ _ _ _ => h.disk_le⟩
  obtain ⟨m, hm, hm1, hm2⟩ := h.blocks _ v hv
  have hn' : n < 2 ^ 32 := lt_of_mul_lt_mul_right (lt_of_le_of_lt hn hbig) (Nat.zero_le B)
  have hm' : m < 2 ^ 32 := lt_of_mul_lt_mul_right (hm1.trans hbig) (Nat.zero_le B)
  obtain rfl : n = m := toInt_inj hn' hm' hm
  exact ⟨hm1, hm2⟩

/-! ### A read does not stop -/

/-- How far a copy goes. -/
lemma iter_copy {v : BlockView} (s : ReadView) {len : ℕ}
    (hlen : min v.readableTo (segTo B stop n - n * B - 1)
      - ((segFrom B offset n - n * B : ℕ) : ℤ) + 1 = len) :
    ∃ s', s.copy B offset stop n v = some s' ∧ s'.iter = s.iter + len ∧ s'.chunk = s.chunk := by
  rw [ReadView.copy]
  simp only [hlen, show ¬ (len : ℤ) < 0 by omega, if_false, Int.toNat_natCast]
  exact ⟨_, rfl, rfl, rfl⟩

/-- The copy of a block that is readable from where the request starts in it. -/
lemma isSome_copy {v : BlockView} (hv : 0 ≤ v.readableTo)
    (hfrom : n * B < offset → ((offset - n * B : ℕ) : ℤ) ≤ v.readableTo)
    (hlt : segFrom B offset n < segTo B stop n) (s : ReadView) :
    (s.copy B offset stop n v).isSome := by
  have hle : n * B ≤ segFrom B offset n := le_max_right _ _
  have hlen : ¬ min v.readableTo (segTo B stop n - n * B - 1)
      - ((segFrom B offset n - n * B : ℕ) : ℤ) + 1 < 0 := by
    rcases Nat.lt_or_ge (n * B) offset with h1 | h1
    · have h2 := hfrom h1
      have h3 : segFrom B offset n = offset := max_eq_left h1.le
      omega
    · have h3 : segFrom B offset n = n * B := max_eq_right h1
      omega
  rw [ReadView.copy]
  simp only [hlen, if_false, Option.isSome_some]

/-- The first block of a read is readable from the offset on. -/
lemma Holds.readable (h : Holds B c f) (ho : offset < c.length) (hn : n * B < offset)
    (hn' : offset < (n + 1) * B) {v : BlockView} (hv : f.blocks (toInt n) = some v) :
    ((offset - n * B : ℕ) : ℤ) ≤ v.readableTo := by
  obtain ⟨hdiv, hmod⟩ := div_mod_of_mem hn.le hn'
  rw [← hdiv] at hv
  rw [← hmod]
  exact ((at_some hv).mp (h offset ho)).1

lemma Holds.isSome_readTurns (h : Holds B c f) (hb : Bounded B f) (hB : 0 < B)
    (ho : offset < c.length) (hstop : offset < stop) :
    ∀ (l : List ℕ), (∀ n ∈ l, n ∈ blocksOf B offset stop) → ∀ s : ReadView,
      (f.readTurns B size offset stop l s).isSome := by
  intro l
  induction l with
  | nil => intro _ s; rfl
  | cons n rest ih =>
      intro hl s
      obtain ⟨hn, hn'⟩ := (mem_blocksOf hB hstop).mp (hl n (by simp))
      have hrest := ih fun m hm => hl m (by simp [hm])
      rw [readTurns, readTurn]
      by_cases hsize : size < n * B
      · rw [if_pos hsize]
        rfl
      · rw [if_neg hsize]
        cases hv : f.blocks (toInt n) with
        | none => exact hrest _
        | some v =>
            dsimp only
            split_ifs
            · rfl
            · obtain ⟨s', hs'⟩ := Option.isSome_iff_exists.mp
                (isSome_copy (hb _ v hv).1 (fun h1 => h.readable ho h1 hn' hv)
                  (segFrom_lt_segTo hstop hn hn' hB) (s.flushAt B stop n f.disk))
              rw [hs', Option.map_some, Option.bind_some, if_pos rfl]
              exact hrest _

/-- **No read stops**, whatever is past the end of the contents. -/
theorem Holds.isSome_read (h : Holds B c f) (hb : Bounded B f) (hB : 0 < B) {k : ℕ} (hk : 0 < k)
    (buf : Mem) : (f.read B c.length offset k buf).isSome := by
  rw [FileView.read]
  split_ifs with ho
  · rfl
  · rw [Option.isSome_map]
    exact h.isSome_readTurns hb hB (by omega) (by omega) _ (fun _ hn => hn) _

/-! ### A read returns the contents -/

/-- The positions below `p` are in the buffer or wait in the chunk. -/
structure ReadTo (B : ℕ) (c : List UInt8) (f : FileView) (offset stop p : ℕ)
    (s : ReadView) : Prop where
  iter_le : offset + s.iter ≤ c.length
  chunk_le : offset + s.iter + s.chunk ≤ p
  covers : min p c.length ≤ offset + s.iter + s.chunk
  chunkFrom : 0 < s.chunk ∨ p < c.length ∧ p < stop → s.chunkFrom = offset + s.iter
  waits : ∀ i, offset + s.iter ≤ i → i < offset + s.iter + s.chunk →
    f.blocks (toInt (i / B : ℕ)) = none ∧ i / B * B < c.length
  bytes : ∀ i < s.iter, some (s.buf i) = (c)[offset + i]?

/-- The chunk is what the contents have. -/
lemma ReadTo.slice_eq (h : Holds B c f) (hX : ClampedTo B c f stop) (hB : 0 < B) {p : ℕ}
    {s : ReadView} (hs : ReadTo B c f offset stop p s) (hp : p ≤ stop) :
    Bytes.slice f.disk (offset + s.iter) s.chunk = Bytes.slice c (offset + s.iter) s.chunk := by
  have hchunk := hs.chunk_le
  refine Bytes.slice_congr fun i h1 h2 => ?_
  obtain ⟨hnone, hstart⟩ := hs.waits i h1 h2
  rcases Nat.lt_or_ge i c.length with hi | hi
  · exact (at_none hnone).mp (h i hi)
  · have hlt : i < (i / B + 1) * B := Nat.lt_mul_of_div_lt (Nat.lt_succ_self _) hB
    have hdisk := hX.rest (i / B) hstart (by omega) (by omega) hnone
    rw [List.getElem?_eq_none (by omega), List.getElem?_eq_none hi]

/-- The chunk is read. -/
lemma ReadTo.flush (h : Holds B c f) (hX : ClampedTo B c f stop) (hB : 0 < B) {p : ℕ} {s : ReadView}
    (hs : ReadTo B c f offset stop p s) (hp : p ≤ stop) (hpos : 0 < s.chunk) :
    offset + (s.flush f.disk).iter = min p c.length ∧
      ∀ i < (s.flush f.disk).iter, some ((s.flush f.disk).buf i) = (c)[offset + i]? := by
  have hfrom := hs.chunkFrom (.inl hpos)
  have hle := hs.iter_le
  have hchunk := hs.chunk_le
  have hcov := hs.covers
  have hslice := hs.slice_eq h hX hB hp
  have hlen : (Bytes.slice c (offset + s.iter) s.chunk).length
      = min s.chunk (c.length - (offset + s.iter)) := Bytes.length_slice _ _ _
  rw [ReadView.flush, hfrom, hslice]
  dsimp only
  refine ⟨by rw [hlen]; omega, fun i hi => ?_⟩
  rw [hlen] at hi
  rw [memcpy, hlen]
  by_cases hin : (s.iter : ℤ) ≤ i ∧ (i : ℤ) < s.iter
    + (min s.chunk (c.length - (offset + s.iter)) : ℕ)
  · rw [if_pos hin]
    have hidx : (0 : ℤ) + ((i : ℤ) - s.iter) = ((i - s.iter : ℕ) : ℤ) := by omega
    rw [hidx, Mem.ofList, if_pos (by omega), Int.toNat_natCast, List.getD_eq_getElem?_getD,
      Bytes.getElem?_slice _ (by omega), show offset + s.iter + (i - s.iter) = offset + i by omega,
      List.getElem?_eq_getElem (by omega), Option.getD_some]
  · rw [if_neg hin]
    exact hs.bytes i (by omega)

/-- The chunk is read before a resident block is copied. -/
lemma ReadTo.flushAt (h : Holds B c f) (hX : ClampedTo B c f stop) (hB : 0 < B)
    {p : ℕ} {s : ReadView} (hs : ReadTo B c f offset stop p s) (hstop : p ≤ stop)
    (hp : p < c.length) : (s.flushAt B stop n f.disk).chunk = 0 ∧
    offset + (s.flushAt B stop n f.disk).iter = p ∧
      ((n + 1) * B < stop → (s.flushAt B stop n f.disk).chunkFrom = (n + 1) * B) ∧
      ∀ i < (s.flushAt B stop n f.disk).iter,
        some ((s.flushAt B stop n f.disk).buf i) = (c)[offset + i]? := by
  rw [ReadView.flushAt]
  by_cases hpos : 0 < s.chunk
  · obtain ⟨h1, h2⟩ := hs.flush h hX hB hstop hpos
    rw [if_pos hpos]
    exact ⟨rfl, by rw [h1]; omega, fun _ => rfl, h2⟩
  · have hcov := hs.covers
    have hchunk := hs.chunk_le
    rw [if_neg hpos]
    split_ifs with hlt
    · exact ⟨by dsimp only; omega, by dsimp only; omega, fun _ => rfl, hs.bytes⟩
    · exact ⟨by omega, by omega, fun h => absurd h hlt, hs.bytes⟩

/-- A resident block is copied. -/
lemma copy_clamped (h : Holds B c f) (hb : Bounded B f) (hX : ClampedTo B c f stop)
    (hn : n * B < stop) (hn' : offset < (n + 1) * B) (ho : offset < c.length) (hlt : offset < stop)
    {v : BlockView} (hv : f.blocks (toInt n) = some v) (hc : n * B < c.length) (hB : 0 < B)
    {s : ReadView} (hiter : offset + s.iter = segFrom B offset n)
    (hbytes : ∀ i < s.iter, some (s.buf i) = (c)[offset + i]?) :
    ∃ s', s.copy B offset stop n v = some s' ∧ s'.chunk = s.chunk ∧ s'.chunkFrom = s.chunkFrom ∧
      offset + s'.iter = min (segTo B stop n) c.length ∧
      ∀ i < s'.iter, some (s'.buf i) = (c)[offset + i]? := by
  obtain ⟨-, hread⟩ := hX.blocks n v hn hc.le hv
  obtain ⟨hv0, hvB, hvlen⟩ := hb _ v hv
  have hseg := segFrom_lt_segTo hlt hn hn' hB
  have hle : n * B ≤ segFrom B offset n := le_max_right _ _
  have hfc : segFrom B offset n < c.length := max_lt ho hc
  have hto : segTo B stop n = min stop ((n + 1) * B) := rfl
  have hn1 : (n + 1) * B = n * B + B := by rw [Nat.add_mul, one_mul]
  -- the copy ends at `q`
  obtain ⟨q, hq⟩ : ∃ q, q = min (segTo B stop n) c.length := ⟨_, rfl⟩
  have hreadTo : min v.readableTo (segTo B stop n - n * B - 1) = (q : ℤ) - n * B - 1 := by
    omega
  have hlen : (q : ℤ) - n * B - 1 - ((segFrom B offset n - n * B : ℕ) : ℤ) + 1
      = ((q - segFrom B offset n : ℕ) : ℤ) := by omega
  rw [ReadView.copy]
  simp only [hreadTo, hlen, show ¬ ((q - segFrom B offset n : ℕ) : ℤ) < 0 by omega, if_false]
  refine ⟨_, rfl, rfl, rfl, ?_, fun i hi => ?_⟩
  · dsimp only
    rw [Int.toNat_natCast]
    omega
  · dsimp only at hi ⊢
    rw [Int.toNat_natCast] at hi
    have hcopy : some (memcpy s.buf s.iter (Mem.ofList v.bytes)
        ((segFrom B offset n - n * B : ℕ) : ℤ)
        ((q - segFrom B offset n : ℕ) : ℤ) i) = (c)[offset + i]? := by
      rw [memcpy]
      by_cases hin : (s.iter : ℤ) ≤ i ∧ (i : ℤ) < s.iter + ((q - segFrom B offset n : ℕ) : ℤ)
      · rw [if_pos hin]
        have hidx : ((segFrom B offset n - n * B : ℕ) : ℤ) + ((i : ℤ) - s.iter)
            = ((offset + i - n * B : ℕ) : ℤ) := by omega
        obtain ⟨hdiv, hmod⟩ :=
          div_mod_of_mem (B := B) (n := n) (i := offset + i) (by omega) (by omega)
        rw [← hdiv] at hv
        obtain ⟨-, hbyte⟩ := (at_some hv).mp (h (offset + i) (by omega))
        rw [hidx, ← hbyte, hmod, Mem.ofList, if_pos (by omega), Int.toNat_natCast,
          List.getD_eq_getElem?_getD, List.getElem?_eq_getElem (by omega), Option.getD_some]
      · rw [if_neg hin]
        exact hbytes i (by omega)
    split_ifs
    · rw [memset_of_not_mem _ _ _ _ (.inl (by omega))]
      exact hcopy
    · exact hcopy

/-- **One turn of a read.** -/
lemma ReadTo.readTurn (h : Holds B c f) (hb : Bounded B f) (hX : ClampedTo B c f stop) (hB : 0 < B)
    (ho : offset < c.length) (hlt : offset < stop) (hn : n ∈ blocksOf B offset stop) {s : ReadView}
    (hs : ReadTo B c f offset stop (segFrom B offset n) s) :
    ∃ s' continues, f.readTurn B c.length offset stop n s = some (s', continues) ∧
      (continues = true → ReadTo B c f offset stop (segTo B stop n) s') ∧
      (continues = false → ReadTo B c f offset stop stop s') := by
  obtain ⟨hn1, hn2⟩ := (mem_blocksOf hB hlt).mp hn
  have hseg := segFrom_lt_segTo hlt hn1 hn2 hB
  have hfrom : segFrom B offset n = max offset (n * B) := rfl
  have hto : segTo B stop n = min stop ((n + 1) * B) := rfl
  rw [FileView.readTurn]
  by_cases hend : c.length < n * B
  · -- the blocks from here on are past the end
    rw [if_pos hend]
    refine ⟨s, false, rfl, fun h => absurd h (by simp), fun _ => ?_⟩
    have hcov := hs.covers
    exact ⟨hs.iter_le, hs.chunk_le.trans (by omega), by omega,
      fun hc => hs.chunkFrom (hc.imp_right fun h => absurd h.2 (lt_irrefl _)), hs.waits, hs.bytes⟩
  rw [if_neg hend]
  have hchunk := hs.chunk_le
  have hcov := hs.covers
  cases hv : f.blocks (toInt n) with
  | none =>
      refine ⟨_, true, rfl, fun _ => ?_, fun h => absurd h (by simp)⟩
      by_cases hc : n * B < c.length
      · rw [if_pos hc]
        have hfrom' := hs.chunkFrom (.inr ⟨by omega, by omega⟩)
        refine ⟨hs.iter_le, by dsimp only; omega, by dsimp only; omega,
          fun _ => hfrom', ?_, hs.bytes⟩
        intro i hi1 hi2
        dsimp only at hi1 hi2
        rcases Nat.lt_or_ge i (offset + s.iter + s.chunk) with hi | hi
        · exact hs.waits i hi1 hi
        · obtain ⟨hdiv, -⟩ := div_mod_of_mem (B := B) (n := n) (i := i) (by omega) (by omega)
          rw [hdiv]
          exact ⟨hv, hc⟩
      · rw [if_neg hc]
        exact ⟨hs.iter_le, by omega, by omega,
          fun h => hs.chunkFrom (h.imp_right fun _ => by omega),
          hs.waits, hs.bytes⟩
  | some v =>
      obtain ⟨hc, -⟩ := hX.blocks n v hn1 (by omega) hv
      obtain ⟨h1, h2, h3, h4⟩ := hs.flushAt (n := n) h hX hB (by omega) (by omega)
      obtain ⟨s', hcopy, h5, h6, h7, h8⟩ := copy_clamped h hb hX hn1 hn2 ho hlt hv hc hB h2 h4
      dsimp only
      rw [if_neg (by omega), hcopy]
      refine ⟨s', true, rfl, fun _ => ?_, fun h => absurd h (by simp)⟩
      rw [h1] at h5
      exact ⟨by omega, by omega, by omega, fun hor => by rw [h6, h3 (by omega)]; omega,
        fun i _ _ => by omega, h8⟩

/-- **The turns of a read**, from block `n` on. -/
lemma ReadTo.readTurns (h : Holds B c f) (hb : Bounded B f) (hX : ClampedTo B c f stop) (hB : 0 < B)
    (ho : offset < c.length) (hlt : offset < stop) (k : ℕ) :
    ∀ (n : ℕ) (s : ReadView), n + k = (stop - 1) / B + 1 → offset / B ≤ n →
      ReadTo B c f offset stop (min stop (segFrom B offset n)) s →
      ∃ s', f.readTurns B c.length offset stop (List.range' n k) s = some s' ∧
        ReadTo B c f offset stop stop s' := by
  induction k with
  | zero =>
      intro n s hk _ hs
      have h1 : stop - 1 < n * B := (Nat.div_lt_iff_lt_mul hB).mp (by omega)
      have h2 : min stop (segFrom B offset n) = stop := by
        rw [segFrom]
        omega
      rw [h2] at hs
      exact ⟨s, rfl, hs⟩
  | succ k ih =>
      intro n s hk hlo hs
      have hmem : n ∈ blocksOf B offset stop := by
        rw [blocksOf, List.mem_range'_1]
        omega
      obtain ⟨hn1, hn2⟩ := (mem_blocksOf hB hlt).mp hmem
      have hfrom : min stop (segFrom B offset n) = segFrom B offset n := by
        rw [segFrom]
        omega
      have hto : min stop (segFrom B offset (n + 1)) = segTo B stop n := by
        rw [segFrom, segTo]
        omega
      rw [hfrom] at hs
      obtain ⟨s', continues, hturn, hcont, hend⟩ := hs.readTurn h hb hX hB ho hlt hmem
      rw [List.range'_succ, FileView.readTurns, hturn, Option.bind_some]
      cases continues with
      | false => exact ⟨s', rfl, hend rfl⟩
      | true => exact ih (n + 1) s' (by omega) (by omega) (by rw [hto]; exact hcont rfl)

/-- A read that meets nothing past the end of the contents. -/
lemma Holds.read_of_clampedTo (h : Holds B c f) (hb : Bounded B f) {k : ℕ}
    (hX : ClampedTo B c f (offset + k)) (hB : 0 < B) (hk : 0 < k) (buf : Mem) :
    ∃ buf', f.read B c.length offset k buf = some (min k (c.length - offset), buf') ∧
      buf'.read 0 (min k (c.length - offset)) = Bytes.slice c offset k := by
  rw [FileView.read]
  split_ifs with ho
  · have hzero : min k (c.length - offset) = 0 := by omega
    rw [hzero]
    refine ⟨buf, rfl, ?_⟩
    rw [Mem.read_zero, Bytes.slice_eq_nil c k ho]
  · have hdiv : offset / B ≤ (offset + k - 1) / B := Nat.div_le_div_right (by omega)
    have hfrom : segFrom B offset (offset / B) = offset := max_eq_left (Nat.div_mul_le_self _ _)
    obtain ⟨s, hturns, hs⟩ := ReadTo.readTurns h hb hX hB (show offset < c.length by omega)
      (show offset < offset + k by omega) ((offset + k - 1) / B + 1 - offset / B) (offset / B)
      ⟨buf, 0, 0, offset⟩ (by omega) le_rfl
      (by rw [hfrom, min_eq_right (by omega)]
          exact ⟨by dsimp only; omega, le_rfl, by dsimp only; omega, fun _ => rfl,
            fun i h1 h2 => by dsimp only at h1 h2; omega, fun i hi =>
              absurd hi (Nat.not_lt_zero i)⟩)
    have hend : offset + (f.readEnd s).iter = min (offset + k) c.length ∧
        ∀ i < (f.readEnd s).iter, some ((f.readEnd s).buf i) = (c)[offset + i]? := by
      rw [readEnd]
      by_cases hpos : 0 < s.chunk
      · rw [if_pos hpos]
        exact hs.flush h hX hB le_rfl hpos
      · have h1 := hs.covers
        have h2 := hs.chunk_le
        have h3 := hs.iter_le
        rw [if_neg hpos]
        exact ⟨by omega, hs.bytes⟩
    have hiter : (f.readEnd s).iter = min k (c.length - offset) := by omega
    rw [blocksOf, hturns, Option.map_some, hiter]
    refine ⟨_, rfl, List.ext_getElem? fun i => ?_⟩
    by_cases hi : i < min k (c.length - offset)
    · rw [Mem.getElem?_read _ _ hi, Bytes.getElem?_slice _ (by omega), zero_add]
      exact hend.2 i (by omega)
    · rw [List.getElem?_eq_none (by rw [Mem.length_read]; omega), List.getElem?_eq_none]
      rw [Bytes.length_slice]
      omega

/-- **A read returns the contents** at the positions asked for, on a clamped view. -/
theorem Holds.read (h : Holds B c f) (hb : Bounded B f) (hX : Clamped B c f) (hB : 0 < B) {k : ℕ}
    (hk : 0 < k) (buf : Mem) :
    ∃ buf', f.read B c.length offset k buf = some (min k (c.length - offset), buf') ∧
      buf'.read 0 (min k (c.length - offset)) = Bytes.slice c offset k :=
  h.read_of_clampedTo hb (hX.clampedTo _) hB hk buf

/-- **A read inside the contents** returns them, whatever is past their end. -/
theorem Holds.read_within (h : Holds B c f) (hb : Bounded B f) (hB : 0 < B) {k : ℕ} (hk : 0 < k)
    (hin : offset + k ≤ c.length) (buf : Mem) :
    ∃ buf', f.read B c.length offset k buf = some (k, buf') ∧
    buf'.read 0 k = Bytes.slice c offset k := by
  have hcount : min k (c.length - offset) = k := by omega
  have hread := h.read_of_clampedTo hb (h.clampedTo hb hB hin) hB hk buf
  rwa [hcount] at hread

end FileView

end LazyFS
