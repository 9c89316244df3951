import LazyFS.File.WriteOp
import LazyFS.File.Read

/-!
`lfs_read` on the view of a file.

* `FS.Same`: two file systems with the same files, differing in the order of the pages at most.
* `ReadOk`: the backing calls of a read go to the file `i` and succeed in full; `ReadAs` relates the
  variables of the block loop to those of `ReadView`.
* `Sound.readBlock`, `Sound.readLoop`: the block loop is `FileView.readTurns`, and `Sound.lfsRead`:
  a read is `FileView.read` and changes no file.
-/

namespace LazyFS

open Engine

variable {cfg : Config}

namespace FS

variable {fs fs' fs'' : FS} {i : ℕ} {path : Path}

/-- Two file systems with the same files. -/
structure Same (cfg : Config) (fs fs' : FS) : Prop where
  sound : fs'.Sound cfg
  disk : fs'.disk = fs.disk
  files : Cache.SameFiles cfg fs.cache fs'.cache

namespace Same

lemma refl (hS : fs.Sound cfg) : Same cfg fs fs := ⟨hS, rfl, .refl _⟩

lemma trans (h : Same cfg fs fs') (h' : Same cfg fs' fs'') : Same cfg fs fs'' :=
  ⟨h'.sound, h'.disk.trans h.disk, h.files.trans h'.files⟩

lemma file (h : Same cfg fs fs') (j : ℕ) : fs'.file cfg j = fs.file cfg j := by
  rw [FS.file, FS.file, h.disk]
  congr 1
  funext b
  exact h.files.view _ b

lemma metaOf (h : Same cfg fs fs') (j : ℕ) : fs'.metaOf j = fs.metaOf j := h.files.metadata _

lemma free (h : Same cfg fs fs') : fs'.free = fs.free := by
  rw [FS.free, FS.free, h.files.freePages]

end Same

lemma Touched.same {n : ℕ} (h : Touched cfg path i n fs fs') (h' : Same cfg fs' fs'') :
    Touched cfg path i n fs fs'' where
  sound := h'.sound
  names := by rw [h'.disk]; exact h.names
  mapping := by rw [h'.files.mapping]; exact h.mapping
  size := by rw [h'.metaOf]; exact h.size
  metaOf := fun j hj => (h'.metaOf j).trans (h.metaOf j hj)
  file := fun j hj => (h'.file j).trans (h.file j hj)

/-- What does not change in the loop of a read of the file `i`. -/
structure ReadOk (r : ReadCtx) (i : ℕ) : Prop where
  inode : r.inode = inodeStr i
  size_pos : 0 < r.size
  no_wrap : r.offset + r.size ≤ 2 ^ 64

/-- A `pread` through the descriptor reads the file `i`, and succeeds in full. -/
def PreadFine (fd : Fd) (io : ReadIo) (i n : ℕ) : Prop :=
  fd.ino = i ∧ fd.readable = true ∧ io.pread n = .full

instance (fd : Fd) (io : ReadIo) (i n : ℕ) : Decidable (PreadFine fd io i n) :=
  inferInstanceAs (Decidable (_ ∧ _))

/-- The `pread`s of a read of some blocks of a file: one before a block that is cached, when blocks
before it were not, and one at the end. -/
def Preads (B size last : ℕ) (cached : ℕ → Bool) (fine : ℕ → Prop) : List ℕ → Bool → Prop
  | [], pending => pending = true → fine last
  | n :: l, pending =>
      if size < n * B then pending = true → fine last
      else if cached n then (pending = true → fine n) ∧ Preads B size last cached fine l false
      else Preads B size last cached fine l (pending || decide (n * B < size))

instance decidablePreads (B size last : ℕ) (cached : ℕ → Bool) (fine : ℕ → Prop)
    [DecidablePred fine] :
    ∀ (l : List ℕ) (pending : Bool), Decidable (Preads B size last cached fine l pending)
  | [], pending => inferInstanceAs (Decidable (pending = true → fine last))
  | n :: l, pending =>
      have := decidablePreads B size last cached fine l
      inferInstanceAs (Decidable (if size < n * B then pending = true → fine last
        else if cached n then (pending = true → fine n) ∧ Preads B size last cached fine l false
        else Preads B size last cached fine l (pending || decide (n * B < size))))

/-- When every `pread` succeeds, those of a read do. -/
lemma preads_of_forall {B size last : ℕ} {cached : ℕ → Bool} {fine : ℕ → Prop} (h : ∀ n, fine n) :
    ∀ (l : List ℕ) (pending : Bool), Preads B size last cached fine l pending := by
  intro l
  induction l with
  | nil => exact fun _ _ => h last
  | cons n l ih =>
      intro pending
      rw [Preads]
      split_ifs
      · exact fun _ => h last
      · exact ⟨fun _ => h n, ih false⟩
      · exact ih _

/-- The variables of the block loop stand for those of the view. -/
structure ReadAs (cfg : Config) (fs : FS) (r : ReadCtx) (s : ReadState) (v : ReadView) : Prop where
  same : Same cfg fs s.fs
  buf : s.buf = v.buf
  iter : s.bufIterator = v.iter
  left : s.bytesLeft = r.size - v.iter
  chunk : s.lastPreadChunkSize = v.chunk
  chunkFrom : s.lastPreadChunkOffset = v.chunkFrom

variable {r : ReadCtx} {s : ReadState} {v : ReadView} {cur : ℕ}

/-- The pending chunk read. -/
lemma ReadAs.preadChunk (h : ReadAs cfg fs r s v) {n : ℕ} (hfine : PreadFine r.fd r.io i n)
    (chunk chunkFrom : ℕ) :
    ReadAs cfg fs r { FS.preadChunk r (r.io.pread n) s with
        lastPreadChunkSize := chunk
        lastPreadChunkOffset := chunkFrom }
      { v.flush (fs.file cfg i).disk with chunk := chunk, chunkFrom := chunkFrom } := by
  obtain ⟨hino, hreadable, hfull⟩ := hfine
  have hpread : s.fs.disk.pread (some r.fd) (r.io.pread n) s.lastPreadChunkSize.toNat
      s.lastPreadChunkOffset = (((Bytes.slice (fs.file cfg i).disk v.chunkFrom v.chunk).length : ℤ),
        Bytes.slice (fs.file cfg i).disk v.chunkFrom v.chunk) := by
    rw [hfull, h.chunk, h.chunkFrom, Int.toNat_natCast, Disk.pread_full _ hreadable, hino,
      h.same.disk, FS.file]
  refine ⟨h.same, ?_, ?_, ?_, rfl, rfl⟩ <;> dsimp only [FS.preadChunk, ReadView.flush] <;>
    rw [hpread]
  · rw [h.buf, h.iter]
  · rw [h.iter]
    push_cast
    rfl
  · rw [h.left]
    push_cast
    ring

/-- The chunk pending before a resident block. -/
lemma ReadAs.flushAt (h : ReadAs cfg fs r s v) (hr : ReadOk r i)
    (hfine : 0 < v.chunk → PreadFine r.fd r.io i cur) (hB : 0 < cfg.ioBlockSize) :
    ReadAs cfg fs r
      (if 0 < s.lastPreadChunkSize then
        { FS.preadChunk r (r.io.pread cur) s with
            lastPreadChunkSize := 0
            lastPreadChunkOffset := (cur + 1) * cfg.ioBlockSize }
      else if cur < blkHigh cfg r.size r.offset then
        { s with lastPreadChunkOffset := (cur + 1) * cfg.ioBlockSize }
      else s)
      (v.flushAt cfg.ioBlockSize (r.offset + r.size) cur (fs.file cfg i).disk) := by
  have hhigh : cur < blkHigh cfg r.size r.offset
      ↔ (cur + 1) * cfg.ioBlockSize < r.offset + r.size := by
    rw [blkHigh, lastByte_eq hr.size_pos hr.no_wrap, ← Nat.succ_le_iff, Nat.le_div_iff_mul_le hB]
    have := hr.size_pos
    rw [Nat.succ_eq_add_one]
    omega
  rw [ReadView.flushAt, h.chunk]
  by_cases hpos : 0 < v.chunk
  · rw [if_pos (by omega), if_pos hpos]
    have := h.preadChunk (hfine hpos) 0 ((cur + 1) * cfg.ioBlockSize)
    push_cast at this
    exact this
  · rw [if_neg (by omega), if_neg hpos]
    by_cases hlt : cur < blkHigh cfg r.size r.offset
    · rw [if_pos hlt, if_pos (hhigh.mp hlt)]
      exact ⟨h.same, h.buf, h.iter, h.left, rfl, by push_cast; rfl⟩
    · rw [if_neg hlt, if_neg (fun h => hlt (hhigh.mpr h))]
      exact h

/-- A copy of the part of a block buffer that the block fills. -/
lemma memcpy_block (dst uninit : Mem) (d : ℤ) (l : List UInt8) {B : ℕ} {start : ℕ} {len : ℤ}
    (h : start + len ≤ B) :
    memcpy dst d (memcpy uninit 0 (.ofList l) 0 B) start len
      = memcpy dst d (.ofList l) start len := by
  funext i
  simp only [memcpy]
  split_ifs with h1 h2
  · congr 1
    omega
  · omega
  · rfl

/-- A resident block copied to the caller. -/
lemma ReadAs.copyCached (h : ReadAs cfg fs r s v) (hr : ReadOk r i) (hS : s.fs.Sound cfg)
    (hc : cur ∈ blocksOf cfg.ioBlockSize r.offset (r.offset + r.size)) (hB : 0 < cfg.ioBlockSize)
    {bv : BlockView} (hbv : (fs.file cfg i).blocks (toInt cur) = some bv) (dataAllocated : ℤ) :
    (v.copy cfg.ioBlockSize r.offset (r.offset + r.size) cur bv = none →
      FS.copyCached cfg r cur (blkReadableFrom cfg r.offset cur)
        (blkReadableTo cfg r.size r.offset cur dataAllocated) s = none) ∧
    ∀ v', v.copy cfg.ioBlockSize r.offset (r.offset + r.size) cur bv = some v' →
      ∃ s', FS.copyCached cfg r cur (blkReadableFrom cfg r.offset cur)
          (blkReadableTo cfg r.size r.offset cur dataAllocated) s = some s' ∧
        ReadAs cfg fs r s' v' := by
  have hlt : r.offset < r.offset + r.size := by
    have := hr.size_pos
    omega
  obtain ⟨hc1, hc2⟩ := (mem_blocksOf hB hlt).mp hc
  have hhigh : cur < blkHigh cfg r.size r.offset
      ↔ (cur + 1) * cfg.ioBlockSize < r.offset + r.size := by
    rw [blkHigh, lastByte_eq hr.size_pos hr.no_wrap, ← Nat.succ_le_iff, Nat.le_div_iff_mul_le hB,
      Nat.succ_eq_add_one]
    omega
  have hview : s.fs.cache.view cfg (inodeStr i) (toInt cur) = some bv := by
    rw [h.same.files.view]
    exact hbv
  obtain ⟨tbl, hG⟩ := hS.good
  -- the block is found in its page
  obtain ⟨c', found, buffers, from', hget, hG', hsame, hfound, hbuf⟩ := hG.getBlock hview cfg.uninit
  have hsame' : Same cfg fs (s.fs.setCache c') := by
    refine h.same.trans ⟨hS.setCache hG' (fun p s hp => .inl ?_) (fun k hk => .inl ?_), rfl, hsame⟩
    · rw [← hsame.mapping]
      exact hp
    · rw [← hsame.metadata]
      exact hk
  have hto : segTo cfg.ioBlockSize (r.offset + r.size) cur ≤ (cur + 1) * cfg.ioBlockSize :=
    min_le_right _ _
  have hn1 : (cur + 1) * cfg.ioBlockSize = cur * cfg.ioBlockSize + cfg.ioBlockSize := by
    rw [Nat.add_mul, one_mul]
  have hle : cur * cfg.ioBlockSize ≤ segFrom cfg.ioBlockSize r.offset cur := le_max_right _ _
  rw [FS.copyCached, hr.inode, hget]
  simp only [Option.bind_eq_bind, Option.bind_some, hfound, hbuf, blkReadableFrom_eq hB hc,
    blkReadableTo_eq hB hr.size_pos hr.no_wrap hc, ReadView.copy, hhigh]
  -- a negative length, or a copy into the buffer at its iterator
  by_cases hneg : min bv.readableTo
      (segTo cfg.ioBlockSize (r.offset + r.size) cur - cur * cfg.ioBlockSize - 1)
      - ((segFrom cfg.ioBlockSize r.offset cur - cur * cfg.ioBlockSize : ℕ) : ℤ) + 1 < 0
  · rw [if_pos hneg, if_pos hneg]
    exact ⟨fun _ => rfl, fun v' h => absurd h (by simp)⟩
  · rw [if_neg hneg, if_neg hneg]
    refine ⟨fun h => absurd h (by simp), fun v' hv' => ?_⟩
    obtain rfl := Option.some.inj hv'
    refine ⟨_, rfl, hsame', ?_, ?_, ?_, h.chunk, h.chunkFrom⟩
    · dsimp only
      rw [memcpy_block _ _ _ _ (by omega), h.buf, h.iter]
    · dsimp only
      rw [h.iter]
      push_cast
      omega
    · dsimp only
      rw [h.left]
      push_cast
      omega

/-- **One turn of the block loop** of `lfs_read`. -/
theorem ReadAs.readBlock (h : ReadAs cfg fs r s v) (hr : ReadOk r i)
    (hc : cur ∈ blocksOf cfg.ioBlockSize r.offset (r.offset + r.size))
    (hfine : ¬ r.metaSize < cur * cfg.ioBlockSize → ((fs.file cfg i).blocks (toInt cur)).isSome →
      0 < v.chunk → PreadFine r.fd r.io i cur) (hB : 0 < cfg.ioBlockSize) :
    ((fs.file cfg i).readTurn cfg.ioBlockSize r.metaSize r.offset (r.offset + r.size) cur v = none →
      FS.readBlock cfg r cur s = none) ∧
    ∀ v' continues, (fs.file cfg i).readTurn cfg.ioBlockSize r.metaSize r.offset (r.offset + r.size)
        cur v = some (v', continues) →
      ∃ s', FS.readBlock cfg r cur s = some (s', continues) ∧ ReadAs cfg fs r s' v' := by
  have hlt : r.offset < r.offset + r.size := by
    have := hr.size_pos
    omega
  obtain ⟨hc1, hc2⟩ := (mem_blocksOf hB hlt).mp hc
  have hseg := segFrom_lt_segTo hlt hc1 hc2 hB
  have hle : cur * cfg.ioBlockSize ≤ segFrom cfg.ioBlockSize r.offset cur := le_max_right _ _
  rw [FileView.readTurn, FS.readBlock]
  -- a block behind the end stops the loop
  by_cases hend : r.metaSize < cur * cfg.ioBlockSize
  · rw [if_pos hend, if_pos hend]
    refine ⟨fun h => absurd h (by simp), fun v' continues hv => ?_⟩
    obtain ⟨rfl, rfl⟩ := Prod.mk.inj (Option.some.inj hv)
    exact ⟨s, rfl, h⟩
  rw [if_neg hend, if_neg hend, hr.inode, h.same.sound.isBlockCached_eq, h.same.file]
  cases hbv : (fs.file cfg i).blocks (toInt cur) with
  | none =>
      -- the block is not resident, and joins the chunk where the file has some of it
      have hnew : ∀ chunk : ℕ, ReadAs cfg fs r
          { s with
              dataAllocated := s.dataAllocated + (blkReadableTo cfg r.size r.offset cur
                s.dataAllocated - blkReadableFrom cfg r.offset cur + 1)
              lastPreadChunkSize := chunk } { v with chunk := chunk } :=
        fun chunk => ⟨h.same, h.buf, h.iter, h.left, rfl, h.chunkFrom⟩
      have hlen : blkReadableTo cfg r.size r.offset cur s.dataAllocated
          - blkReadableFrom cfg r.offset cur + 1
          = ((segTo cfg.ioBlockSize (r.offset + r.size) cur
            - segFrom cfg.ioBlockSize r.offset cur : ℕ) : ℤ) := by
        rw [blkReadableFrom_eq hB hc, blkReadableTo_eq hB hr.size_pos hr.no_wrap hc]
        omega
      refine ⟨fun h => absurd h (by simp), fun v' continues hv => ?_⟩
      obtain ⟨rfl, rfl⟩ := Prod.mk.inj (Option.some.inj hv)
      simp only [Option.isSome_none, Bool.false_eq_true, if_false]
      by_cases hneeds : cur * cfg.ioBlockSize < r.metaSize
      · rw [if_pos hneeds, if_pos hneeds, hlen, h.chunk]
        refine ⟨_, rfl, ?_⟩
        have := hnew (v.chunk + (segTo cfg.ioBlockSize (r.offset + r.size) cur
          - segFrom cfg.ioBlockSize r.offset cur))
        rw [hlen] at this
        push_cast at this ⊢
        exact this
      · rw [if_neg hneeds, if_neg hneeds]
        exact ⟨_, rfl, h.same, h.buf, h.iter, h.left, h.chunk, h.chunkFrom⟩
  | some bv =>
      -- the block is resident: the chunk before it is read first
      have hflush : ReadAs cfg fs r _ (v.flushAt cfg.ioBlockSize (r.offset + r.size) cur
        (fs.file cfg i).disk) :=
          h.flushAt hr (fun hpos => hfine hend (by rw [hbv, Option.isSome_some]) hpos) hB
      generalize hs1 : (if 0 < s.lastPreadChunkSize then
        { FS.preadChunk r (r.io.pread cur) s with
            lastPreadChunkSize := 0
            lastPreadChunkOffset := (cur + 1) * cfg.ioBlockSize }
        else if cur < blkHigh cfg r.size r.offset then
          { s with lastPreadChunkOffset := (cur + 1) * cfg.ioBlockSize }
        else s) = s1 at hflush
      have hleft : s1.bytesLeft ≤ 0 ↔ r.offset + r.size ≤ r.offset
          + (v.flushAt cfg.ioBlockSize (r.offset + r.size) cur (fs.file cfg i).disk).iter := by
        rw [hflush.left]
        omega
      have hcopy := hflush.copyCached hr hflush.same.sound hc hB hbv s.dataAllocated
      simp only [Option.isSome_some, if_true, hs1, hleft]
      -- the chunk may have filled the buffer
      by_cases hstop : r.offset + r.size ≤ r.offset
          + (v.flushAt cfg.ioBlockSize (r.offset + r.size) cur (fs.file cfg i).disk).iter
      · rw [if_pos hstop, if_pos hstop]
        refine ⟨fun h => absurd h (by simp), fun v' continues hv => ?_⟩
        obtain ⟨rfl, rfl⟩ := Prod.mk.inj (Option.some.inj hv)
        exact ⟨s1, rfl, hflush⟩
      · rw [if_neg hstop, if_neg hstop]
        refine ⟨fun h => ?_, fun v' continues hv => ?_⟩
        · rw [Option.map_eq_none_iff] at h
          rw [hcopy.1 h]
          rfl
        · rw [Option.map_eq_some_iff] at hv
          obtain ⟨v1, hv1, hv2⟩ := hv
          obtain ⟨rfl, rfl⟩ := Prod.mk.inj hv2
          obtain ⟨s', hs', hrel⟩ := hcopy.2 _ hv1
          rw [hs']
          exact ⟨s', rfl, hrel⟩

/-- The blocks of a file that are cached. -/
def cachedBlocks (cfg : Config) (fs : FS) (i n : ℕ) : Bool :=
  ((fs.file cfg i).blocks (toInt n)).isSome

/-- The `pread`s after one turn: those of the other turns, or the last one. -/
lemma Preads.turn {size offset stop n last : ℕ} {fine : ℕ → Prop} {l : List ℕ} {v' : ReadView}
    {continues : Bool} (hseg : segFrom cfg.ioBlockSize offset n < segTo cfg.ioBlockSize stop n)
    (h : Preads cfg.ioBlockSize size last (fs.cachedBlocks cfg i) fine (n :: l)
      (decide (0 < v.chunk)))
    (hturn : (fs.file cfg i).readTurn cfg.ioBlockSize size offset stop n v = some (v', continues)) :
    (continues = true →
      Preads cfg.ioBlockSize size last (fs.cachedBlocks cfg i) fine l (decide (0 < v'.chunk))) ∧
    (continues = false → 0 < v'.chunk → fine last) := by
  rw [FileView.readTurn] at hturn
  rw [Preads, cachedBlocks] at h
  -- behind the end the loop stops, with the chunk still to be read
  by_cases hend : size < n * cfg.ioBlockSize
  · rw [if_pos hend] at h hturn
    obtain ⟨rfl, rfl⟩ := Prod.mk.inj (Option.some.inj hturn)
    exact ⟨fun hc => (by cases hc), fun _ hpos => h (decide_eq_true hpos)⟩
  rw [if_neg hend] at h hturn
  -- a block that is not resident grows the chunk, and a resident one ends it
  cases hb : (fs.file cfg i).blocks (toInt n) with
  | none =>
      rw [hb, Option.isSome_none, if_neg Bool.false_ne_true] at h
      rw [hb] at hturn
      obtain ⟨rfl, rfl⟩ := Prod.mk.inj (Option.some.inj hturn)
      refine ⟨fun _ => ?_, fun hc => (by cases hc)⟩
      convert h using 1
      by_cases hneeds : n * cfg.ioBlockSize < size
      · rw [if_pos hneeds, decide_eq_true hneeds, Bool.or_true, decide_eq_true_eq]
        dsimp only
        omega
      · rw [if_neg hneeds, decide_eq_false hneeds, Bool.or_false]
  | some bv =>
      have hchunk : (v.flushAt cfg.ioBlockSize stop n (fs.file cfg i).disk).chunk = 0 := by
        rw [ReadView.flushAt]
        split_ifs
        · rfl
        · exact Nat.eq_zero_of_not_pos (by assumption)
        · exact Nat.eq_zero_of_not_pos (by assumption)
      rw [hb, Option.isSome_some, if_pos rfl] at h
      rw [hb] at hturn
      dsimp only at hturn
      split_ifs at hturn
      · obtain ⟨rfl, rfl⟩ := Prod.mk.inj (Option.some.inj hturn)
        exact ⟨fun hc => (by cases hc), fun _ hpos => absurd hchunk hpos.ne'⟩
      · obtain ⟨v1, hcopy, heq⟩ := Option.map_eq_some_iff.mp hturn
        obtain ⟨rfl, rfl⟩ := Prod.mk.inj heq
        have hv1 : v1.chunk = 0 := by
          rw [ReadView.copy] at hcopy
          dsimp only at hcopy
          split_ifs at hcopy <;> exact Option.some.inj hcopy ▸ hchunk
        refine ⟨fun _ => ?_, fun hc => (by cases hc)⟩
        rw [hv1, decide_eq_false (lt_irrefl 0)]
        exact h.2

/-- The `pread` before a block that is cached. -/
lemma Preads.flush {size n last : ℕ} {fine : ℕ → Prop} {l : List ℕ}
    (h : Preads cfg.ioBlockSize size last (fs.cachedBlocks cfg i) fine (n :: l)
      (decide (0 < v.chunk)))
    (hend : ¬ size < n * cfg.ioBlockSize) (hb : ((fs.file cfg i).blocks (toInt n)).isSome)
    (hpos : 0 < v.chunk) : fine n := by
  rw [Preads, if_neg hend, cachedBlocks, hb, if_pos rfl] at h
  exact h.1 (decide_eq_true hpos)

/-- **The block loop** of `lfs_read`. -/
theorem ReadAs.readLoop (hr : ReadOk r i) (hB : 0 < cfg.ioBlockSize) {last : ℕ} (l : List ℕ) :
    ∀ (s : ReadState) (v : ReadView), ReadAs cfg fs r s v →
      (∀ n ∈ l, n ∈ blocksOf cfg.ioBlockSize r.offset (r.offset + r.size)) →
      Preads cfg.ioBlockSize r.metaSize last (fs.cachedBlocks cfg i) (PreadFine r.fd r.io i) l
        (decide (0 < v.chunk)) →
      ((fs.file cfg i).readTurns cfg.ioBlockSize r.metaSize r.offset (r.offset + r.size) l v
        = none →
        FS.readLoop cfg r l s = none) ∧
      ∀ v', (fs.file cfg i).readTurns cfg.ioBlockSize r.metaSize r.offset (r.offset + r.size) l v
          = some v' →
        ∃ s', FS.readLoop cfg r l s = some s' ∧ ReadAs cfg fs r s' v' ∧
          (0 < v'.chunk → PreadFine r.fd r.io i last) := by
  induction l with
  | nil =>
      intro s v h _ hp
      refine ⟨fun h => absurd h (by simp [FileView.readTurns]), fun v' hv => ?_⟩
      obtain rfl := Option.some.inj hv
      exact ⟨s, rfl, h, fun hpos => hp (decide_eq_true hpos)⟩
  | cons n rest ih =>
      intro s v h hl hp
      have hlt : r.offset < r.offset + r.size := Nat.lt_add_of_pos_right hr.size_pos
      obtain ⟨hn1, hn2⟩ := (mem_blocksOf hB hlt).mp (hl n (by simp))
      obtain ⟨hnone, hsome⟩ := h.readBlock hr (hl n (by simp)) hp.flush hB
      have ih' := fun s' v' h' => ih s' v' h' fun m hm => hl m (by simp [hm])
      rw [FileView.readTurns, FS.readLoop]
      -- the turn of the view decides: an exception, another turn or the end
      cases hturn : (fs.file cfg i).readTurn cfg.ioBlockSize r.metaSize r.offset
          (r.offset + r.size) n v with
      | none =>
          refine ⟨fun _ => ?_, fun v' hv => absurd hv (by simp)⟩
          rw [hnone hturn]
          rfl
      | some res =>
          obtain ⟨v1, continues⟩ := res
          obtain ⟨s1, hs1, h1⟩ := hsome v1 continues hturn
          obtain ⟨hrest, hstop⟩ := hp.turn (segFrom_lt_segTo hlt hn1 hn2 hB) hturn
          rw [hs1, Option.bind_some, Option.bind_eq_bind, Option.bind_some]
          cases continues with
          | true => exact ih' s1 v1 h1 (hrest rfl)
          | false =>
              refine ⟨fun h => absurd h (by simp), fun v' hv => ?_⟩
              obtain rfl := Option.some.inj hv
              exact ⟨s1, rfl, h1, hstop rfl⟩

/-- The handles that a read is called with. -/
def ReadHandle (i : ℕ) (fi : Option FileInfo) : Prop :=
  ∀ f, fi = some f → f.fh.ino = i ∧ f.fh.readable = true

/-- The calls of a read succeed in full. -/
def ReadIo.Ok (io : ReadIo) : Prop := ∀ n, io.pread n = .full

/-- **The `pread`s that a read makes succeed in full**: there is none past the recorded size. -/
def PreadsFine (cfg : Config) (fs : FS) (i : ℕ) (fd : Fd) (io : ReadIo) (size offset : ℕ) : Prop :=
  offset < fs.sizeOf i →
    Preads cfg.ioBlockSize (fs.sizeOf i) (blkHigh cfg size offset + 1)
      (fun n => fs.cache.isBlockCached cfg (inodeStr i) (toInt n)) (PreadFine fd io i)
      (blocksOf cfg.ioBlockSize offset (offset + size)) false

instance (cfg : Config) (fs : FS) (i : ℕ) (fd : Fd) (io : ReadIo) (size offset : ℕ) :
    Decidable (fs.PreadsFine cfg i fd io size offset) :=
  inferInstanceAs (Decidable (_ → _))

/-- **`lfs_read`** is `FileView.read`, and changes no file, when the `pread`s that it makes
succeed. -/
theorem Sound.lfsRead_served (hS : fs.Sound cfg) (hB : 0 < cfg.ioBlockSize)
    (hi : fs.disk.ino path = some i) (buf : Mem) {size offset : ℕ} (hs : 0 < size)
    (hw : offset + size ≤ 2 ^ 64) {fi : Option FileInfo} {io : ReadIo} {fd : Fd}
    (hfd : (fi.map FileInfo.fh).or (fs.disk.openRead path) = some fd)
    (hio : fs.PreadsFine cfg i fd io size offset) :
    ((fs.file cfg i).read cfg.ioBlockSize (fs.sizeOf i) offset size buf = none →
      fs.lfsRead cfg path buf size offset fi io = none) ∧
    ∀ k buf', (fs.file cfg i).read cfg.ioBlockSize (fs.sizeOf i) offset size buf = some (k, buf') →
      ∃ fs', fs.lfsRead cfg path buf size offset fi io = some (fs', writeResult cfg k, buf') ∧
        Touched cfg path i (fs.sizeOf i) fs fs' ∧ fs'.file cfg i = fs.file cfg i ∧
        fs'.free = fs.free := by
  obtain ⟨fs1, st, hget, hopen, -⟩ := hS.lfsGetattr hi
  obtain ⟨m, hm, hmsize⟩ := hopen.touched.exists_meta
  have hmeta : fs1.readMeta cfg path (inodeStr i) io.now = some (fs1, fs.sizeOf i) := by
    rw [FS.readMeta, show fs1.cache.getContentMetadata (inodeStr i) = some m from hm, ← hmsize]
  have hview := hopen.view_eq
  obtain ⟨hfile, hfree⟩ := Prod.mk.inj hview
  rw [← hfile, FileView.read, FS.lfsRead, hfd]
  simp only [hget, Option.bind_eq_bind, Option.bind_some, hopen.inode, hmeta]
  -- behind the end nothing is read
  by_cases hend : fs.sizeOf i ≤ offset
  · rw [if_pos hend, if_pos (by omega)]
    refine ⟨fun h => absurd h (by simp), fun k buf' hk => ?_⟩
    obtain ⟨rfl, rfl⟩ := Prod.mk.inj (Option.some.inj hk)
    exact ⟨fs1, by rw [writeResult_of_lt (by norm_num)]; rfl, hopen.touched, rfl, hfree⟩
  · rw [if_neg hend, if_neg (by omega), blkRange_eq hs hw]
    -- the loop over the blocks
    have hr : ReadOk ⟨inodeStr i, fd, fs.sizeOf i, size, offset, io⟩ i := ⟨rfl, hs, hw⟩
    have hstart : ReadAs cfg fs1 ⟨inodeStr i, fd, fs.sizeOf i, size, offset, io⟩
        ⟨fs1, buf, 0, size, 0, 0, offset⟩ ⟨buf, 0, 0, offset⟩ :=
      ⟨.refl hopen.sound, rfl, rfl, by simp, rfl, rfl⟩
    have hcached : (fun n : ℕ => fs.cache.isBlockCached cfg (inodeStr i) (toInt n))
        = fs1.cachedBlocks cfg i := by
      funext n
      rw [cachedBlocks, hfile, hS.isBlockCached_eq]
    have hpreads := hio (not_le.mp hend)
    rw [hcached] at hpreads
    obtain ⟨hnone, hsome⟩ := ReadAs.readLoop hr hB _ _ _ hstart (fun n hn => hn) hpreads
    refine ⟨fun h => ?_, fun k buf' hk => ?_⟩
    · rw [Option.map_eq_none_iff] at h
      rw [hnone h]
      rfl
    · rw [Option.map_eq_some_iff] at hk
      obtain ⟨v, hv, hvk⟩ := hk
      obtain ⟨rfl, rfl⟩ := Prod.mk.inj hvk
      obtain ⟨s, hs, hrel, hlast⟩ := hsome v hv
      -- the chunk that is left after the loop is read last
      have hfinal : ∃ s', (if 0 < s.lastPreadChunkSize then
            FS.preadChunk ⟨inodeStr i, fd, fs.sizeOf i, size, offset, io⟩
              (io.pread (blkHigh cfg size offset + 1)) s else s) = s' ∧
          Same cfg fs1 s'.fs ∧ s'.buf = ((fs1.file cfg i).readEnd v).buf ∧
          s'.bufIterator = ((fs1.file cfg i).readEnd v).iter := by
        rw [FileView.readEnd, hrel.chunk]
        by_cases hpos : 0 < v.chunk
        · have := hrel.preadChunk (hlast hpos) 0 0
          rw [if_pos (by omega), if_pos hpos]
          exact ⟨_, rfl, this.same, this.buf, this.iter⟩
        · rw [if_neg (by omega), if_neg hpos]
          exact ⟨_, rfl, hrel.same, hrel.buf, hrel.iter⟩
      obtain ⟨s', hs', hsame, hbuf, hiter⟩ := hfinal
      rw [hs]
      simp only [Option.bind_some, hs', hbuf, hiter]
      refine ⟨s'.fs, rfl, hopen.touched.same hsame, hsame.file i, hsame.free.trans hfree⟩

/-- The descriptor that a read goes through reads the file. -/
lemma exists_preadsFine (cfg : Config) (hi : fs.disk.ino path = some i) {fi : Option FileInfo}
    (hfi : ReadHandle i fi) {io : ReadIo} (hio : ReadIo.Ok io) (size offset : ℕ) :
    ∃ fd, (fi.map FileInfo.fh).or (fs.disk.openRead path) = some fd ∧
      fs.PreadsFine cfg i fd io size offset := by
  obtain ⟨fd, hfd, hino, hread⟩ : ∃ fd, (fi.map FileInfo.fh).or (fs.disk.openRead path) = some fd ∧
      fd.ino = i ∧ fd.readable = true := by
    cases fi with
    | none => exact ⟨⟨i, true, false⟩, by rw [Disk.openRead, hi]; rfl, rfl, rfl⟩
    | some f => exact ⟨f.fh, rfl, hfi f rfl⟩
  exact ⟨fd, hfd, fun _ => preads_of_forall (fun n => ⟨hino, hread, hio n⟩) _ _⟩

/-- **`lfs_read`** on a handle that allows it, when all calls succeed. -/
theorem Sound.lfsRead (hS : fs.Sound cfg) (hB : 0 < cfg.ioBlockSize)
    (hi : fs.disk.ino path = some i) (buf : Mem) {size offset : ℕ} (hs : 0 < size)
    (hw : offset + size ≤ 2 ^ 64) {fi : Option FileInfo} (hfi : ReadHandle i fi) {io : ReadIo}
    (hio : ReadIo.Ok io) :
    ((fs.file cfg i).read cfg.ioBlockSize (fs.sizeOf i) offset size buf = none →
      fs.lfsRead cfg path buf size offset fi io = none) ∧
    ∀ k buf', (fs.file cfg i).read cfg.ioBlockSize (fs.sizeOf i) offset size buf = some (k, buf') →
      ∃ fs', fs.lfsRead cfg path buf size offset fi io = some (fs', writeResult cfg k, buf') ∧
        Touched cfg path i (fs.sizeOf i) fs fs' ∧ fs'.file cfg i = fs.file cfg i ∧
        fs'.free = fs.free := by
  obtain ⟨fd, hfd, hfine⟩ := exists_preadsFine cfg hi hfi hio size offset
  exact hS.lfsRead_served hB hi buf hs hw hfd hfine

end FS

end LazyFS
