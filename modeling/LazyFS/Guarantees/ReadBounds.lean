import LazyFS.File.Kept
import LazyFS.Model.ReadAccesses

/-!
**The memory that a read touches.**

* `FileView.Abreast`: how far the block loop of a read is; `Abreast.wait`, `Abreast.copied`: one
  block.
* `FileView.Overlong`: the last block of the file ends early, and the zeros after it do not fit.
* `Reading.turn` and `Reading.blockAccesses_inside_iff`: one turn of the loop and its accesses;
  `Reading.loopAccesses_inside_iff`: the loop stays inside the buffers unless the read is overlong.
* `readAccesses_inside_iff`: so does `lfs_read`, in every state reached.
* `read_outside`: a read that zeroes bytes past the end of the caller's buffer.
-/

namespace LazyFS

open Engine

namespace FileView

variable {B offset stop n p : ℕ} {f : FileView} {c : List UInt8} {v : ReadView}
  {bv : BlockView}

/-- The requested bytes before `p` are in the buffer or wait in the chunk; those that wait are in no
resident block. -/
structure Abreast (B : ℕ) (f : FileView) (offset stop p : ℕ) (v : ReadView) : Prop where
  place : offset + v.iter + v.chunk = p
  chunkFrom : 0 < v.chunk ∨ p < stop → v.chunkFrom = offset + v.iter
  waits : ∀ j, offset + v.iter ≤ j → j < p → f.blocks (toInt (j / B : ℕ)) = none

/-- What waits is in the backing file. -/
lemma Abreast.flush (h : Holds B c f) (hv : Abreast B f offset stop p v) (hp : p ≤ c.length)
    (hpos : 0 < v.chunk) : (v.flush f.disk).iter = v.iter + v.chunk := by
  have hplace := hv.place
  have hin : p - 1 < c.length := by omega
  have hlast := h (p - 1) hin
  rw [at_none (hv.waits (p - 1) (by omega) (by omega)), List.getElem?_eq_getElem hin] at hlast
  have hdisk : p - 1 < f.disk.length := (List.getElem?_eq_some_iff.mp hlast).1
  rw [ReadView.flush, hv.chunkFrom (.inl hpos)]
  dsimp only
  rw [Bytes.length_slice]
  omega

/-- The chunk is read before a resident block is copied. -/
lemma Abreast.flushAt (h : Holds B c f) (hv : Abreast B f offset stop p v) (hp : p ≤ c.length) :
    (v.flushAt B stop n f.disk).chunk = 0 ∧ offset + (v.flushAt B stop n f.disk).iter = p ∧
      ((n + 1) * B < stop → (v.flushAt B stop n f.disk).chunkFrom = (n + 1) * B) := by
  have hplace := hv.place
  rw [ReadView.flushAt]
  by_cases hpos : 0 < v.chunk
  · have hiter := hv.flush h hp hpos
    rw [if_pos hpos]
    exact ⟨rfl, by dsimp only; omega, fun _ => rfl⟩
  · rw [if_neg hpos]
    split_ifs with hlt
    · exact ⟨by dsimp only; omega, by dsimp only; omega, fun _ => rfl⟩
    · exact ⟨by omega, by omega, fun hc => absurd hc hlt⟩

/-- A block that is not resident waits. -/
lemma Abreast.wait (hv : Abreast B f offset stop (segFrom B offset n) v) (hB : 0 < B)
    (hlt : offset < stop) (hn : n * B < stop) (hn' : offset < (n + 1) * B)
    (hnone : f.blocks (toInt n) = none) :
    Abreast B f offset stop (segTo B stop n)
      { v with chunk := v.chunk + (segTo B stop n - segFrom B offset n) } := by
  have hseg := segFrom_lt_segTo hlt hn hn' hB
  have hplace := hv.place
  have hto : segTo B stop n = min stop ((n + 1) * B) := rfl
  have hle : n * B ≤ segFrom B offset n := le_max_right _ _
  refine ⟨by dsimp only; omega, fun _ => hv.chunkFrom (.inr (by omega)), fun j hj hjp => ?_⟩
  rcases Nat.lt_or_ge j (segFrom B offset n) with hlow | hhigh
  · exact hv.waits j hj hlow
  · obtain ⟨hdiv, -⟩ := div_mod_of_mem (B := B) (n := n) (i := j) (by omega) (by omega)
    rw [hdiv]
    exact hnone

/-- A resident block inside the contents is readable to its end. -/
lemma Holds.readable_full (h : Holds B c f) (hb : Bounded B f) (hB : 0 < B)
    (hbv : f.blocks (toInt n) = some bv) (hfull : (n + 1) * B ≤ c.length) :
    bv.readableTo + 1 = B := by
  have hn1 : (n + 1) * B = n * B + B := by rw [Nat.add_mul, one_mul]
  obtain ⟨hdiv, hmod⟩ := div_mod_of_mem (B := B) (n := n) (i := n * B + B - 1) (by omega) (by omega)
  have hbound := (hb _ bv hbv).2.1
  rw [← hdiv] at hbv
  have hread := ((at_some hbv).mp (h (n * B + B - 1) (by omega))).1
  rw [hmod] at hread
  omega

/-- The bytes that the copy of a resident block leaves to its end. -/
lemma Holds.copy_pos (h : Holds B c f) (hb : Bounded B f) (hB : 0 < B) (ho : offset < c.length)
    (hlt : offset < stop) (hn : n * B < stop) (hn' : offset < (n + 1) * B)
    (hbv : f.blocks (toInt n) = some bv) :
    ((segFrom B offset n - n * B : ℕ) : ℤ) ≤ min bv.readableTo (segTo B stop n - n * B - 1) := by
  have hseg := segFrom_lt_segTo hlt hn hn' hB
  have hle : n * B ≤ segFrom B offset n := le_max_right _ _
  have h0 := (hb _ bv hbv).1
  rcases Nat.lt_or_ge (n * B) offset with h1 | h1
  · have h2 := h.readable ho h1 hn' hbv
    have h3 : segFrom B offset n = offset := max_eq_left h1.le
    omega
  · have h3 : segFrom B offset n = n * B := max_eq_right h1
    omega

/-- How far the copy of a resident block goes. -/
lemma exists_copy (hle : ((segFrom B offset n - n * B : ℕ) : ℤ) ≤ min bv.readableTo
    (segTo B stop n - n * B - 1)) (w : ReadView) :
    ∃ w', w.copy B offset stop n bv = some w' ∧ w'.chunk = w.chunk ∧ w'.chunkFrom = w.chunkFrom ∧
      (w'.iter : ℤ) = w.iter + (min bv.readableTo (segTo B stop n - n * B - 1)
        - (segFrom B offset n - n * B : ℕ) + 1) := by
  have hlen : ¬ min bv.readableTo (segTo B stop n - n * B - 1)
      - ((segFrom B offset n - n * B : ℕ) : ℤ) + 1 < 0 := by omega
  rw [ReadView.copy]
  simp only [hlen, if_false]
  exact ⟨_, rfl, rfl, rfl, by dsimp only; omega⟩

/-- A block is resident and ends early, the request goes on after it, and it ends less than a block
after that. -/
def OverlongAt (B n stop : ℕ) (f : FileView) : Prop :=
  ∃ bv, f.blocks (toInt n) = some bv ∧ bv.readableTo + 1 < B ∧ (n + 1) * B < stop ∧
    (stop : ℤ) < n * B + (bv.readableTo + 1) + B

/-- The last block of a file of a given size is resident and ends early, the request goes on after
it, and it ends less than a block after that. -/
def Overlong (B size stop : ℕ) (f : FileView) : Prop :=
  ∃ bv, f.blocks (toInt (size / B : ℕ)) = some bv ∧ bv.readableTo + 1 < B ∧
    (size / B + 1) * B < stop ∧ (stop : ℤ) < (size / B : ℕ) * B + (bv.readableTo + 1) + B

end FileView

namespace FS

variable {cfg : Config} {fs : FS} {c : List UInt8} {path : Path} {i n p : ℕ}
  {r : ReadCtx} {s : ReadState}
  {v : ReadView}

/-- Bytes before `stop` that go to the buffer of the request `[offset, stop)`. -/
lemma inside_store {B size : ℕ} {start len : ℤ} (h0 : 0 ≤ start) (hlen : 0 ≤ len)
    (hend : start + len ≤ size) : (ReadAccess.store start len).Inside B size :=
  ⟨hlen, fun j h1 h2 => ⟨by omega, by omega⟩⟩

lemma inside_load {B size : ℕ} {start len : ℤ} (h0 : 0 ≤ start) (hlen : 0 ≤ len)
    (hend : start + len ≤ B) : (ReadAccess.load start len).Inside B size :=
  ⟨hlen, fun j h1 h2 => ⟨by omega, by omega⟩⟩

/-- A store of at least one byte that stays inside ends inside. -/
lemma le_of_inside_store {B size : ℕ} {start len : ℤ} (hlen : 0 < len)
    (h : (ReadAccess.store start len).Inside B size) : start + len ≤ size := by
  have := (h.2 (start + len - 1) (by omega) (by omega)).2
  omega

/-- The pending chunk fits. -/
lemma ReadAs.chunk_inside (h : ReadAs cfg fs r s v) {B : ℕ} (hend : v.iter + v.chunk ≤ r.size) :
    ∀ a ∈ chunkAccesses s, a.Inside B r.size := by
  intro a ha
  rw [chunkAccesses, h.chunk, h.iter] at ha
  split_ifs at ha
  · rw [List.mem_singleton] at ha
    rw [ha]
    exact inside_store (by omega) (by omega) (by omega)
  · cases ha

/-- Past the end of the file the loop ends. -/
lemma loopAccesses_past (l : List ℕ) (hl : ∀ m ∈ l.head?, r.metaSize < m * cfg.ioBlockSize) :
    loopAccesses cfg r l s = chunkAccesses s := by
  cases l with
  | nil => rfl
  | cons m l =>
      have hm := hl m rfl
      rw [loopAccesses, blockAccesses, readBlock, if_pos hm, if_pos hm, List.nil_append]

/-- A block that is not cached is not touched. -/
lemma ReadAs.blockAccesses_none (h : ReadAs cfg fs r s v) (hr : ReadOk r i)
    (hnone : (fs.file cfg i).blocks (toInt n) = none) : blockAccesses cfg r n s = [] := by
  rw [blockAccesses, hr.inode, h.same.sound.isBlockCached_eq, h.same.file, hnone,
    Option.isSome_none]
  simp only [Bool.false_eq_true, if_false, ite_self]

/-- The accesses for a cached block. -/
lemma ReadAs.blockAccesses_some (h : ReadAs cfg fs r s v) (hr : ReadOk r i)
    (hB : 0 < cfg.ioBlockSize) (hn : n ∈ blocksOf cfg.ioBlockSize r.offset (r.offset + r.size))
    (hin : ¬ r.metaSize < n * cfg.ioBlockSize)
    (hbv : (fs.file cfg i).blocks (toInt n) = some bv)
    (hfine : 0 < v.chunk → PreadFine r.fd r.io i n)
    (hgo : ¬ r.offset + r.size ≤ r.offset
      + (v.flushAt cfg.ioBlockSize (r.offset + r.size) n (fs.file cfg i).disk).iter) :
    let from' : ℤ := (segFrom cfg.ioBlockSize r.offset n - n * cfg.ioBlockSize : ℕ)
    let readTo := min bv.readableTo
      (segTo cfg.ioBlockSize (r.offset + r.size) n - n * cfg.ioBlockSize - 1)
    let iter := (v.flushAt cfg.ioBlockSize (r.offset + r.size) n (fs.file cfg i).disk).iter
    blockAccesses cfg r n s = chunkAccesses s ++ ([.load from' (readTo - from' + 1),
      .store iter (readTo - from' + 1)] ++
        if readTo < cfg.ioBlockSize - 1 ∧ (n + 1) * cfg.ioBlockSize < r.offset + r.size then
          [.store (iter + (readTo - from' + 1) + readTo) (cfg.ioBlockSize - readTo)] else []) := by
  intro from' readTo iter
  have hhigh : n < blkHigh cfg r.size r.offset ↔ (n + 1) * cfg.ioBlockSize < r.offset + r.size := by
    rw [blkHigh, lastByte_eq hr.size_pos hr.no_wrap, ← Nat.succ_le_iff, Nat.le_div_iff_mul_le hB,
      Nat.succ_eq_add_one]
    have := hr.size_pos
    omega
  -- the state after the chunk is read
  have hflush := h.flushAt hr hfine hB
  generalize hs1 : (if 0 < s.lastPreadChunkSize then
    { FS.preadChunk r (r.io.pread n) s with
        lastPreadChunkSize := 0
        lastPreadChunkOffset := (n + 1) * cfg.ioBlockSize }
    else if n < blkHigh cfg r.size r.offset then
      { s with lastPreadChunkOffset := (n + 1) * cfg.ioBlockSize }
    else s) = s1 at hflush
  have hleft : ¬ s1.bytesLeft ≤ 0 := by
    rw [hflush.left]
    omega
  obtain ⟨tbl, hG⟩ := hflush.same.sound.good
  have hview : s1.fs.cache.view cfg (inodeStr i) (toInt n) = some bv := by
    rw [hflush.same.files.view]
    exact hbv
  obtain ⟨c', found, buffers, from1, hget, -, -, hfound, hbuf⟩ := hG.getBlock hview cfg.uninit
  -- what is accessed then is the copy of the block
  have hcopy : blockAccesses cfg r n s = chunkAccesses s ++ copyAccesses cfg r n
      (blkReadableFrom cfg r.offset n) (blkReadableTo cfg r.size r.offset n s.dataAllocated)
        s1 := by
    rw [blockAccesses, if_neg hin, hr.inode, h.same.sound.isBlockCached_eq, h.same.file, hbv,
      Option.isSome_some, if_pos rfl]
    simp only [hs1, hleft, if_false]
  rw [hcopy, copyAccesses, hr.inode, hget]
  simp only [hfound, hbuf, blkReadableFrom_eq hB hn, blkReadableTo_eq hB hr.size_pos hr.no_wrap hn,
    hflush.iter, hhigh]
  rfl

/-- A read that starts in a file with the contents `c`; the `pread`s before the cached blocks of the
request succeed in full. -/
structure Reading (cfg : Config) (fs : FS) (c : List UInt8) (r : ReadCtx) (i : ℕ) : Prop where
  ok : ReadOk r i
  holds : (fs.file cfg i).Holds cfg.ioBlockSize c
  bounded : (fs.file cfg i).Bounded cfg.ioBlockSize
  starts : r.offset < c.length
  size : r.metaSize = c.length
  fine : ∀ n, r.offset < (n + 1) * cfg.ioBlockSize →
    (n + 1) * cfg.ioBlockSize < r.offset + r.size → (n + 1) * cfg.ioBlockSize ≤ c.length →
    (fs.file cfg i).blocks (toInt n) = none →
    (fs.file cfg i).blocks (toInt (n + 1 : ℕ)) ≠ none → PreadFine r.fd r.io i (n + 1)

section Turn

variable (hR : Reading cfg fs c r i) (hB : 0 < cfg.ioBlockSize)
  (hmem : n ∈ blocksOf cfg.ioBlockSize r.offset (r.offset + r.size))
  (hin : n * cfg.ioBlockSize ≤ c.length)
  (hv : (fs.file cfg i).Abreast cfg.ioBlockSize r.offset (r.offset + r.size)
    (segFrom cfg.ioBlockSize r.offset n) v)

include hR hB hmem hin hv

/-- A chunk waits only after a block that is not cached, so that its `pread` succeeds. -/
lemma Reading.preadFine (hcached : (fs.file cfg i).blocks (toInt n) ≠ none) (hpos : 0 < v.chunk) :
    PreadFine r.fd r.io i n := by
  have hlt : r.offset < r.offset + r.size := Nat.lt_add_of_pos_right hR.ok.size_pos
  have hn1 := ((mem_blocksOf hB hlt).mp hmem).1
  have hplace := hv.place
  have hbefore : r.offset < n * cfg.ioBlockSize := by
    rw [segFrom] at hplace
    omega
  obtain ⟨m, rfl⟩ : ∃ m, n = m + 1 :=
    ⟨n - 1, (Nat.sub_add_cancel (Nat.pos_of_ne_zero fun h0 => by rw [h0] at hbefore; omega)).symm⟩
  have hmB : (m + 1) * cfg.ioBlockSize = m * cfg.ioBlockSize + cfg.ioBlockSize := by
    rw [Nat.add_mul, one_mul]
  have hfromB : segFrom cfg.ioBlockSize r.offset (m + 1) = (m + 1) * cfg.ioBlockSize :=
    max_eq_right hbefore.le
  obtain ⟨hdiv, -⟩ := FileView.div_mod_of_mem (B := cfg.ioBlockSize) (n := m)
    (i := (m + 1) * cfg.ioBlockSize - 1) (by omega) (by omega)
  have hnone := hv.waits ((m + 1) * cfg.ioBlockSize - 1) (by omega) (by omega)
  rw [hdiv] at hnone
  exact hR.fine m hbefore hn1 hin hnone hcached

/-- A turn inside the file: the loop goes on, abreast of the next block unless the file ends before
it. -/
lemma Reading.turn (h : ReadAs cfg fs r s v) :
    ∃ s' v', readBlock cfg r n s = some (s', true) ∧ ReadAs cfg fs r s' v' ∧
      v'.iter + v'.chunk ≤ r.size ∧ ((n + 1) * cfg.ioBlockSize ≤ c.length →
        (fs.file cfg i).Abreast cfg.ioBlockSize r.offset (r.offset + r.size)
          (segTo cfg.ioBlockSize (r.offset + r.size) n) v') := by
  have hlt : r.offset < r.offset + r.size := Nat.lt_add_of_pos_right hR.ok.size_pos
  obtain ⟨hn1, hn2⟩ := (mem_blocksOf hB hlt).mp hmem
  have hseg := segFrom_lt_segTo hlt hn1 hn2 hB
  have hto : segTo cfg.ioBlockSize (r.offset + r.size) n
      = min (r.offset + r.size) ((n + 1) * cfg.ioBlockSize) := rfl
  have hnext : (n + 1) * cfg.ioBlockSize = n * cfg.ioBlockSize + cfg.ioBlockSize := by
    rw [Nat.add_mul, one_mul]
  have hle : n * cfg.ioBlockSize ≤ segFrom cfg.ioBlockSize r.offset n := le_max_right _ _
  have hplace := hv.place
  obtain ⟨-, hsome⟩ := h.readBlock hR.ok hmem (fun _ hcached => hR.preadFine hB hmem hin hv (by
    rw [← Option.isSome_iff_ne_none]
    exact hcached)) hB
  cases hbv : (fs.file cfg i).blocks (toInt n) with
  | none =>
      -- the block is added to the chunk that waits
      have hturn : (fs.file cfg i).readTurn cfg.ioBlockSize r.metaSize r.offset
          (r.offset + r.size) n v
          = some (if n * cfg.ioBlockSize < c.length then
            { v with chunk := v.chunk + (segTo cfg.ioBlockSize (r.offset + r.size) n
              - segFrom cfg.ioBlockSize r.offset n) } else v, true) := by
        rw [FileView.readTurn, hR.size, if_neg (not_lt.mpr hin), hbv]
      obtain ⟨s', hread, h'⟩ := hsome _ _ hturn
      refine ⟨s', _, hread, h', ?_, fun hmore => ?_⟩
      · split_ifs
        · dsimp only
          omega
        · omega
      · rw [if_pos (by omega)]
        exact hv.wait hB hlt hn1 hn2 hbv
  | some bv =>
      -- the chunk is read, and the block copied
      have hpos := hR.holds.copy_pos hR.bounded hB hR.starts hlt hn1 hn2 hbv
      obtain ⟨hchunk, hiter, hchunkFrom⟩ := hv.flushAt hR.holds (max_le hR.starts.le hin) (n := n)
      obtain ⟨w, hcopy, hw1, hw2, hw3⟩ := FileView.exists_copy hpos
        (v.flushAt cfg.ioBlockSize (r.offset + r.size) n (fs.file cfg i).disk)
      have hturn : (fs.file cfg i).readTurn cfg.ioBlockSize r.metaSize r.offset
          (r.offset + r.size) n v = some (w, true) := by
        rw [FileView.readTurn, hR.size, if_neg (not_lt.mpr hin), hbv]
        dsimp only
        rw [if_neg (by omega), hcopy]
        rfl
      obtain ⟨s', hread, h'⟩ := hsome _ _ hturn
      refine ⟨s', w, hread, h', by omega, fun hmore => ?_⟩
      have hfull := hR.holds.readable_full hR.bounded hB hbv hmore
      exact ⟨by omega, fun _ => by rw [hw2, hchunkFrom (by omega)]; omega, fun j _ _ => by omega⟩

/-- The accesses for a cached block stay inside unless it ends early and the zeros after it do not
fit. -/
lemma Reading.copy_inside_iff (h : ReadAs cfg fs r s v) {bv : BlockView}
    (hbv : (fs.file cfg i).blocks (toInt n) = some bv) :
    (∀ a ∈ blockAccesses cfg r n s, a.Inside cfg.ioBlockSize r.size) ↔
      ¬ (bv.readableTo + 1 < cfg.ioBlockSize ∧ (n + 1) * cfg.ioBlockSize < r.offset + r.size ∧
        ((r.offset + r.size : ℕ) : ℤ) < n * cfg.ioBlockSize + (bv.readableTo + 1)
          + cfg.ioBlockSize) := by
  have hlt : r.offset < r.offset + r.size := Nat.lt_add_of_pos_right hR.ok.size_pos
  obtain ⟨hn1, hn2⟩ := (mem_blocksOf hB hlt).mp hmem
  have hseg := segFrom_lt_segTo hlt hn1 hn2 hB
  have hpos := hR.holds.copy_pos hR.bounded hB hR.starts hlt hn1 hn2 hbv
  have hle : n * cfg.ioBlockSize ≤ segFrom cfg.ioBlockSize r.offset n := le_max_right _ _
  have hto : segTo cfg.ioBlockSize (r.offset + r.size) n
      = min (r.offset + r.size) ((n + 1) * cfg.ioBlockSize) := rfl
  have hnext : (n + 1) * cfg.ioBlockSize = n * cfg.ioBlockSize + cfg.ioBlockSize := by
    rw [Nat.add_mul, one_mul]
  have hplace := hv.place
  obtain ⟨-, hiter, -⟩ := hv.flushAt hR.holds (max_le hR.starts.le hin) (n := n)
  have hsize := hR.size
  have hacc := h.blockAccesses_some hR.ok hB hmem (by omega) hbv
    (hR.preadFine hB hmem hin hv (by rw [hbv]; exact Option.some_ne_none _)) (by omega)
  dsimp only at hacc
  -- what the block is readable to, and how much of it is copied
  generalize hreadTo : min bv.readableTo
    (segTo cfg.ioBlockSize (r.offset + r.size) n - n * cfg.ioBlockSize - 1) = readTo at hacc hpos
  generalize hlen :
    readTo - ((segFrom cfg.ioBlockSize r.offset n - n * cfg.ioBlockSize : ℕ) : ℤ) + 1 = len at hacc
  have hchunk : ∀ a ∈ chunkAccesses s, a.Inside cfg.ioBlockSize r.size := h.chunk_inside (by omega)
  rw [hacc, List.forall_mem_append, List.forall_mem_append, List.forall_mem_cons,
    List.forall_mem_singleton]
  constructor
  · rintro ⟨-, -, hzeros⟩ ⟨hshort, hgo, hpast⟩
    rw [if_pos ⟨by omega, hgo⟩, List.forall_mem_singleton] at hzeros
    have := le_of_inside_store (by omega) hzeros
    omega
  · intro hfits
    refine ⟨hchunk, ⟨inside_load (by omega) (by omega) (by omega),
      inside_store (by omega) (by omega) (by omega)⟩, ?_⟩
    split_ifs with hzeros
    · rw [List.forall_mem_singleton]
      have hend : ¬ ((r.offset + r.size : ℕ) : ℤ)
          < n * cfg.ioBlockSize + (bv.readableTo + 1) + cfg.ioBlockSize :=
        fun hpast => hfits ⟨by omega, hzeros.2, hpast⟩
      exact inside_store (by omega) (by omega) (by omega)
    · exact fun a ha => absurd ha List.not_mem_nil

/-- The accesses for a block. -/
lemma Reading.blockAccesses_inside_iff (h : ReadAs cfg fs r s v) :
    (∀ a ∈ blockAccesses cfg r n s, a.Inside cfg.ioBlockSize r.size) ↔
      ¬ (fs.file cfg i).OverlongAt cfg.ioBlockSize n (r.offset + r.size) := by
  rw [FileView.OverlongAt]
  cases hbv : (fs.file cfg i).blocks (toInt n) with
  | none =>
      rw [h.blockAccesses_none hR.ok hbv]
      refine iff_of_true (fun a ha => absurd ha List.not_mem_nil) ?_
      rintro ⟨bv, hsome, -⟩
      cases hsome
  | some bv =>
      rw [hR.copy_inside_iff hB hmem hin hv h hbv]
      refine not_congr ⟨fun hc => ⟨bv, rfl, hc⟩, ?_⟩
      rintro ⟨bv', heq, hc⟩
      obtain rfl := Option.some.inj heq
      exact hc

end Turn

/-- **The block loop** stays inside the buffers, unless the read is overlong. -/
theorem Reading.loopAccesses_inside_iff (hR : Reading cfg fs c r i) (hB : 0 < cfg.ioBlockSize)
    (k : ℕ) :
    ∀ (n : ℕ) (s : ReadState) (v : ReadView), ReadAs cfg fs r s v →
      n + k = (r.offset + r.size - 1) / cfg.ioBlockSize + 1 → r.offset / cfg.ioBlockSize ≤ n →
      n * cfg.ioBlockSize ≤ c.length →
      (fs.file cfg i).Abreast cfg.ioBlockSize r.offset (r.offset + r.size)
        (min (r.offset + r.size) (segFrom cfg.ioBlockSize r.offset n)) v →
      ((∀ a ∈ loopAccesses cfg r (List.range' n k) s, a.Inside cfg.ioBlockSize r.size) ↔
        ¬ (fs.file cfg i).Overlong cfg.ioBlockSize c.length (r.offset + r.size)) := by
  have hlt : r.offset < r.offset + r.size := Nat.lt_add_of_pos_right hR.ok.size_pos
  induction k with
  | zero =>
      intro n s v h hk _ hin hv
      have hplace := hv.place
      have hend : r.offset + r.size - 1 < n * cfg.ioBlockSize :=
        (Nat.div_lt_iff_lt_mul hB).mp (by omega)
      refine iff_of_true (h.chunk_inside (by omega)) ?_
      rintro ⟨bv, -, -, hgo, -⟩
      -- the last block is not before block `n`
      have hlast : n ≤ c.length / cfg.ioBlockSize := (Nat.le_div_iff_mul_le hB).mpr hin
      have hmul := Nat.mul_le_mul_right cfg.ioBlockSize (Nat.le_succ_of_le hlast)
      rw [Nat.succ_eq_add_one] at hmul
      omega
  | succ k ih =>
      intro n s v h hk hlo hin hv
      have hmem : n ∈ blocksOf cfg.ioBlockSize r.offset (r.offset + r.size) := by
        rw [blocksOf, List.mem_range'_1]
        omega
      obtain ⟨hn1, hn2⟩ := (mem_blocksOf hB hlt).mp hmem
      have hseg := segFrom_lt_segTo hlt hn1 hn2 hB
      have hfrom : min (r.offset + r.size) (segFrom cfg.ioBlockSize r.offset n)
          = segFrom cfg.ioBlockSize r.offset n := min_eq_right (by
        have : segTo cfg.ioBlockSize (r.offset + r.size) n ≤ r.offset + r.size := min_le_left _ _
        omega)
      rw [hfrom] at hv
      obtain ⟨s', v', hread, h', hend, habreast⟩ := hR.turn hB hmem hin hv h
      rw [List.range'_succ, loopAccesses, List.forall_mem_append,
        hR.blockAccesses_inside_iff hB hmem hin hv h, hread]
      dsimp only
      by_cases hmore : (n + 1) * cfg.ioBlockSize ≤ c.length
      · -- a whole block of the file: it does not end early
        have hfull : ¬ (fs.file cfg i).OverlongAt cfg.ioBlockSize n (r.offset + r.size) := by
          rintro ⟨bv, hbv, hshort, -⟩
          have := hR.holds.readable_full hR.bounded hB hbv hmore
          omega
        have hto : min (r.offset + r.size) (segFrom cfg.ioBlockSize r.offset (n + 1))
            = segTo cfg.ioBlockSize (r.offset + r.size) n := by
          rw [segFrom, segTo]
          omega
        refine (and_iff_right hfull).trans (ih (n + 1) s' v' h' (by omega) (by omega) hmore ?_)
        rw [hto]
        exact habreast hmore
      · -- the file ends in this block: the rest of the loop only reads the chunk
        have hrest : loopAccesses cfg r (List.range' (n + 1) k) s' = chunkAccesses s' := by
          refine loopAccesses_past _ fun m hm => ?_
          cases k with
          | zero => cases hm
          | succ k =>
              rw [List.range'_succ, List.head?_cons, Option.mem_some_iff] at hm
              rw [← hm, hR.size]
              exact not_le.mp hmore
        have hlast : c.length / cfg.ioBlockSize = n := Nat.div_eq_of_lt_le hin (not_le.mp hmore)
        rw [hrest, FileView.Overlong, hlast]
        exact and_iff_left (h'.chunk_inside hend)

/-! ### The read -/

/-- The `pread`s that a read makes before it copies a cached block succeed in full: there is one
when the block before it is not cached. -/
def PreadsBefore (cfg : Config) (fs : FS) (i : ℕ) (fd : Fd) (io : ReadIo)
    (size offset : ℕ) : Prop :=
  ∀ n : ℕ, offset < (n + 1) * cfg.ioBlockSize → (n + 1) * cfg.ioBlockSize < offset + size →
    (n + 1) * cfg.ioBlockSize ≤ fs.sizeOf i →
    fs.cache.isBlockCached cfg (inodeStr i) (toInt n) = false →
    fs.cache.isBlockCached cfg (inodeStr i) (toInt (n + 1 : ℕ)) = true → PreadFine fd io i (n + 1)

/-- The read starts in the file, and its zeros do not fit. -/
def Overlong (cfg : Config) (fs : FS) (i size offset : ℕ) : Prop :=
  offset < fs.sizeOf i ∧ (fs.file cfg i).Overlong cfg.ioBlockSize (fs.sizeOf i) (offset + size)

/-- `lfs_read` on a file that has its contents. -/
theorem Sound.inside_iff (hS : fs.Sound cfg) (hB : 0 < cfg.ioBlockSize)
    (hi : fs.disk.ino path = some i) (hsize : fs.sizeOf i = c.length)
    (hH : (fs.file cfg i).Holds cfg.ioBlockSize c) (hb : (fs.file cfg i).Bounded cfg.ioBlockSize)
    (buf : Mem) {size offset : ℕ} (hs : 0 < size) (hw : offset + size ≤ 2 ^ 64)
    {fi : Option FileInfo} {fd : Fd}
    (hfd : (fi.map FileInfo.fh).or (fs.disk.openRead path) = some fd) {io : ReadIo}
    (hio : fs.PreadsBefore cfg i fd io size offset) :
    (∀ a ∈ fs.readAccesses cfg path buf size offset fi io, a.Inside cfg.ioBlockSize size) ↔
      ¬ fs.Overlong cfg i size offset := by
  obtain ⟨fs1, st, hget, hopen, -⟩ := hS.lfsGetattr hi
  obtain ⟨m, hm, hmsize⟩ := hopen.touched.exists_meta
  have hmeta : fs1.readMeta cfg path (inodeStr i) io.now = some (fs1, fs.sizeOf i) := by
    rw [FS.readMeta, show fs1.cache.getContentMetadata (inodeStr i) = some m from hm, ← hmsize]
  obtain ⟨hfile, -⟩ := Prod.mk.inj hopen.view_eq
  rw [FS.readAccesses, hfd]
  simp only [hget, Option.bind_some, hopen.inode, hmeta, Option.map_some]
  -- behind the end nothing is accessed
  by_cases hend : fs.sizeOf i ≤ offset
  · rw [if_pos (by omega)]
    exact ⟨fun _ hc => absurd hc.1 (not_lt.mpr hend), fun _ a ha => absurd ha List.not_mem_nil⟩
  · have ho : offset < c.length := by omega
    rw [if_neg (by omega), blkRange_eq hs hw, blocksOf]
    -- the loop starts with an empty chunk at the offset
    have hstart : ReadAs cfg fs1 ⟨inodeStr i, fd, fs.sizeOf i, size, offset, io⟩
        ⟨fs1, buf, 0, size, 0, 0, offset⟩ ⟨buf, 0, 0, offset⟩ :=
      ⟨.refl hopen.sound, rfl, rfl, by simp, rfl, rfl⟩
    have hfine : ∀ n : ℕ, offset < (n + 1) * cfg.ioBlockSize →
        (n + 1) * cfg.ioBlockSize < offset + size →
        (n + 1) * cfg.ioBlockSize ≤ c.length → (fs.file cfg i).blocks (toInt n) = none →
        (fs.file cfg i).blocks (toInt (n + 1 : ℕ)) ≠ none → PreadFine fd io i (n + 1) := by
      intro n h1 h2 h3 hnone hcached
      refine hio n h1 h2 (by omega) ?_ ?_
      · rw [hS.isBlockCached_eq, hnone, Option.isSome_none]
      · rw [hS.isBlockCached_eq, Option.isSome_iff_ne_none]
        exact hcached
    have hdiv : offset / cfg.ioBlockSize ≤ (offset + size - 1) / cfg.ioBlockSize :=
      Nat.div_le_div_right (by omega)
    have hfrom : segFrom cfg.ioBlockSize offset (offset / cfg.ioBlockSize) = offset :=
      max_eq_left (Nat.div_mul_le_self _ _)
    rw [← hfile] at hH hb hfine
    have hR : Reading cfg fs1 c ⟨inodeStr i, fd, fs.sizeOf i, size, offset, io⟩ i :=
      ⟨⟨rfl, hs, hw⟩, hH, hb, ho, hsize, hfine⟩
    refine (hR.loopAccesses_inside_iff hB _ _ _ _ hstart (by dsimp only; omega) le_rfl
      ((Nat.div_mul_le_self _ _).trans ho.le) ?_).trans (not_congr ?_)
    · dsimp only
      rw [hfrom, min_eq_right (by omega)]
      exact ⟨rfl, fun _ => rfl, fun j h1 h2 => by omega⟩
    · -- the condition of the loop is that of the claim
      rw [FS.Overlong, hfile, hsize]
      exact ⟨fun hc => ⟨ho, hc⟩, fun hc => hc.2⟩

/-- The states that calls reach which evict no page. -/
abbrev ReachedRoomy (cfg : Config) : FS × (ℕ → List UInt8) → Prop :=
  Runs.Reach (FileOp.step cfg)
    (fun s op => op.Proper cfg s.1 ∧ (cfg.applyLruEviction = true → op.Roomy cfg s.1))
      (FS.Start cfg)

lemma keeps_of_reachedRoomy (h : OnePage cfg) {s : FS × (ℕ → List UInt8)}
    (hs : ReachedRoomy cfg s) :
    Keeps cfg s.1 s.2 := by
  refine hs.invariant (P := fun s => Keeps cfg s.1 s.2) ?_ ?_
  · rintro _ ⟨d, hd, rfl⟩
    exact shows_new h d fun i => .bare (hd i)
  · intro s op s' hk hop hstep
    obtain ⟨fs', res, hrun, -, hs', -⟩ := hk.run h op hop.1 hop.2
    rw [FileOp.step, hrun, Option.map_some, Option.some.injEq] at hstep
    rw [← hstep]
    exact hs'

end FS

/-- **`lfs_read` stays inside the caller's buffer and its own**, in every state reached, exactly
when the read is not overlong. -/
theorem readAccesses_inside_iff {cfg : Config} (h : OnePage cfg) {s : FS × (ℕ → List UInt8)}
    (hs : FS.ReachedRoomy cfg s) {path : Path} {i : ℕ} (hi : s.1.disk.ino path = some i) (buf : Mem)
    {size offset : ℕ} (hsize : 0 < size) (hw : offset + size ≤ 2 ^ 64)
    {fi : Option FileInfo} {fd : Fd}
    (hfd : (fi.map FileInfo.fh).or (s.1.disk.openRead path) = some fd) {io : ReadIo}
    (hio : s.1.PreadsBefore cfg i fd io size offset) :
    (∀ a ∈ s.1.readAccesses cfg path buf size offset fi io, a.Inside cfg.ioBlockSize size) ↔
      ¬ s.1.Overlong cfg i size offset := by
  have hk := FS.keeps_of_reachedRoomy h hs
  exact hk.sound.inside_iff h.pos hi (hk.size i) (hk.file i).holds (hk.file i).bounded buf
    hsize hw hfd hio

/-- Three bytes, in blocks of four. -/
def writeAbc : FileOp := .write ["f"] abcd 3 0 handle {} {}

/-- They are written to the empty file. -/
def wroteAbc : Option (FS × (ℕ → List UInt8)) :=
  FileOp.step (.tiny 2 false) (⟨.new (.tiny 2 false), oneFile⟩, oneFile.bytes) writeAbc

lemma reached_wroteAbc {s : FS × (ℕ → List UInt8)} (hs : wroteAbc = some s) :
    FS.ReachedRoomy (.tiny 2 false) s := by
  have hproper : writeAbc.Proper (.tiny 2 false) ⟨.new (.tiny 2 false), oneFile⟩ :=
    ⟨1, rfl, by decide, by decide, ⟨rfl, rfl, rfl⟩, ⟨rfl, fun _ => rfl, fun _ => rfl⟩,
      ⟨rfl, fun _ => rfl, fun _ => rfl⟩⟩
  exact .step (.init ⟨oneFile, fun _ => Nat.zero_le _, rfl⟩) ⟨hproper, fun hlru => by cases hlru⟩ hs

/-- A read of the block. -/
theorem readAccesses_inside_wroteAbc : ∃ s, wroteAbc = some s ∧
    ∀ a ∈ s.1.readAccesses (.tiny 2 false) ["f"] abcd 4 0 none {}, a.Inside 4 4 := by
  have hval : wroteAbc.map (fun s => s.1.disk.ino ["f"]) = some (some 1) := by decide +kernel
  obtain ⟨s, hs, hi⟩ := Option.map_eq_some_iff.mp hval
  have hfd : ((none : Option FileInfo).map FileInfo.fh).or (s.1.disk.openRead ["f"])
      = some ⟨1, true, false⟩ := by
    rw [Disk.openRead, hi]
    rfl
  have hfits : ¬ s.1.Overlong (.tiny 2 false) 1 4 0 := by
    rintro ⟨-, bv, -, -, hgo, -⟩
    rw [show (Config.tiny 2 false).ioBlockSize = 4 from rfl] at hgo
    omega
  exact ⟨s, hs, (readAccesses_inside_iff (Config.onePage_tiny 2 false) (reached_wroteAbc hs) hi abcd
    (by decide) (by decide) hfd fun _ _ _ _ _ _ => ⟨rfl, rfl, rfl⟩).mpr hfits⟩

/-- **A read of five bytes stores past them**: after the three bytes of the file the zeros start at
index five. -/
theorem read_outside : ∃ s, FS.ReachedRoomy (.tiny 2 false) s ∧
    ∃ a ∈ s.1.readAccesses (.tiny 2 false) ["f"] abcd 5 0 none {}, ¬ a.Inside 4 5 := by
  have hval : wroteAbc.map (fun s => s.1.readAccesses (.tiny 2 false) ["f"] abcd 5 0 none {})
      = some [.load 0 3, .store 0 3, .store 5 2] := by decide +kernel
  obtain ⟨s, hs, hacc⟩ := Option.map_eq_some_iff.mp hval
  refine ⟨s, reached_wroteAbc hs, .store 5 2, by rw [hacc]; decide, fun hin => ?_⟩
  have := FS.le_of_inside_store (by norm_num) hin
  omega

end LazyFS
