import LazyFS.File.Kept

/-!
**A truncation that shrinks** a file.

* `ShrinkOk`: no block that starts at or past the new size is cached, and reads return the contents
  that are left, until the file is written to again.
* `shrinkOk_iff`: it is so exactly when the new size ends a block and no block past it was cached;
  the item that `lfs_truncate` cuts is looked up by its path, and no item has such a name.
* `shrink_reads_past`: a read returns more bytes than are left.
-/

namespace LazyFS

open Engine

variable {cfg : Config}

/-- The file system `fs'` after the file `i` with the contents `s.2 i` was truncated to size `n`:
what is cached, and what is read after further calls. -/
structure ShrinkOk (cfg : Config) (s : FS × (ℕ → List UInt8)) (path : Path) (i n : ℕ)
    (fs' : FS) : Prop where
  dropped : ∀ b : ℤ, (n : ℤ) ≤ b * cfg.ioBlockSize →
    fs'.cache.isBlockCached cfg (inodeStr i) b = false
  reads : ∀ (later : List FileOp) (s' : FS × (ℕ → List UInt8)),
    Runs.Guarded (FileOp.step cfg) (fun s op => op.Proper cfg s.1 ∧ op.Spares s.1.disk i)
      (fs', Function.update s.2 i ((s.2 i).take n)) later →
    Runs.run (FileOp.step cfg) (fs', Function.update s.2 i ((s.2 i).take n)) later = some s' →
    ∀ (buf : Mem) (size offset : ℕ) (fi : Option FileInfo) (io : ReadIo), 0 < size →
      offset + size ≤ 2 ^ 63 → FS.ReadHandle i fi → FS.ReadIo.Ok io →
      ∃ fs'' r buf', s'.1.lfsRead cfg path buf size offset fi io = some (fs'', r, buf') ∧
        r = FS.writeResult cfg (Bytes.slice (s.2 i)
          offset (min n (offset + size) - offset)).length ∧
        buf'.read 0 (min n (offset + size) - offset)
          = Bytes.slice (s.2 i) offset (min n (offset + size) - offset)

namespace FileView

variable {B n : ℕ} {c : List UInt8} {f : FileView}

/-- After a file is cut at the end of a block past which nothing is cached, nothing past the end is
read. -/
lemma Kept.clamped_take (h : Kept B c f) (hdvd : B ∣ n) (hn : n < c.length)
    (hnone : ∀ b : ℤ, (n : ℤ) ≤ b * B → f.blocks b = none) : Clamped B (c.take n) f := by
  have hlen : (c.take n).length = n := by
    rw [List.length_take]
    omega
  obtain ⟨k, hk⟩ := hdvd
  have hnext : ∀ m, m * B < n → (m + 1) * B ≤ n := by
    intro m hm
    rw [hk, mul_comm B] at hm ⊢
    exact Nat.mul_le_mul_right B (Nat.lt_of_mul_lt_mul_right hm)
  refine ⟨fun m v hm hv => ?_, fun m h1 h2 _ => ?_⟩
  · rw [hlen] at hm ⊢
    have hid : toInt m = m := toInt_of_small h.small (by omega)
    have hlt : m * B < n := by
      by_contra hge
      rw [hid, hnone m (by exact_mod_cast not_lt.mp hge)] at hv
      cases hv
    have hm1 := hnext m hlt
    have hB : (m + 1) * B = m * B + B := by rw [Nat.add_mul, one_mul]
    obtain ⟨-, hvB, -⟩ := h.bounded _ v hv
    -- the last byte of the block is among the contents
    have hBpos : 0 < B := Nat.pos_of_ne_zero fun h0 => by
      rw [h0] at hlt hk
      omega
    obtain ⟨hdiv, hmod⟩ :=
      div_mod_of_mem (B := B) (n := m) (i := m * B + B - 1) (by omega) (by omega)
    have hat := (at_some (by rw [hdiv]; exact hv)).mp (h.holds (m * B + B - 1) (by omega))
    rw [hmod] at hat
    refine ⟨hlt, ?_⟩
    have := hat.1
    omega
  · rw [hlen] at h1 h2
    have := hnext m h1
    omega

/-- A read across the end of a file that was cut inside a block returns a byte past the end. -/
lemma Holds.read_across (h : Holds B c f) (hB : 0 < B) (hdvd : ¬ B ∣ n)
    (hn : n < c.length) (buf : Mem) :
    ∃ buf', f.read B n (n - 1) 2 buf = some (2, buf') := by
  have hmod : 0 < n % B := Nat.pos_of_ne_zero fun h0 => hdvd (Nat.dvd_of_mod_eq_zero h0)
  have hlt := Nat.mod_lt n hB
  have hdm := Nat.div_add_mod n B
  rw [mul_comm] at hdm
  -- the two bytes lie in one block
  have hlo : (n - 1) / B = n / B := (div_mod_of_mem (B := B) (n := n / B) (i := n - 1) (by omega)
    (by rw [Nat.add_mul, one_mul]; omega)).1
  have hblocks : blocksOf B (n - 1) (n - 1 + 2) = [n / B] := by
    rw [blocksOf, hlo, show n - 1 + 2 - 1 = n by omega, Nat.add_sub_cancel_left]
    rfl
  have hfrom : segFrom B (n - 1) (n / B) = n - 1 := max_eq_left (by omega)
  have hto : segTo B (n - 1 + 2) (n / B) = n + 1 := by
    rw [segTo, Nat.add_mul, one_mul]
    omega
  have hat := h n hn
  rw [FileView.read, if_neg (by omega), hblocks, readTurns, readTurn, if_neg (by omega)]
  -- it is read from the disk, or copied from its page
  cases hv : f.blocks (toInt (n / B : ℕ)) with
  | none =>
      rw [at_none hv, List.getElem?_eq_getElem hn] at hat
      have hdisk : n < f.disk.length := (List.getElem?_eq_some_iff.mp hat).1
      dsimp only
      rw [if_pos (by omega), Option.bind_some, if_pos rfl, hfrom, hto, readTurns, Option.map_some,
        readEnd, if_pos (by dsimp only; omega), ReadView.flush]
      dsimp only
      rw [Bytes.length_slice]
      refine ⟨_, by congr 2; omega⟩
  | some v =>
      obtain ⟨hread, -⟩ := (at_some hv).mp hat
      dsimp only
      have hiter : ∀ s : ReadView, s.iter = 0 → s.chunk = 0 →
          (s.flushAt B (n - 1 + 2) (n / B) f.disk).iter = 0 ∧
          (s.flushAt B (n - 1 + 2) (n / B) f.disk).chunk = 0 := by
        intro s h1 h2
        rw [ReadView.flushAt, if_neg (by omega)]
        split_ifs <;> exact ⟨h1, h2⟩
      obtain ⟨h1, h2⟩ := hiter ⟨buf, 0, 0, n - 1⟩ rfl rfl
      have hlen : min v.readableTo (segTo B (n - 1 + 2) (n / B) - (n / B : ℕ) * B - 1)
          - ((segFrom B (n - 1) (n / B) - n / B * B : ℕ) : ℤ) + 1 = (2 : ℕ) := by
        have : (n : ℤ) = (n / B : ℕ) * B + (n % B : ℕ) := by exact_mod_cast hdm.symm
        rw [hfrom, hto]
        omega
      obtain ⟨s', hs', hiter', hchunk'⟩ := iter_copy
        (ReadView.flushAt B (n - 1 + 2) (n / B) f.disk ⟨buf, 0, 0, n - 1⟩) hlen
      rw [h1, if_neg (by omega), hs', Option.map_some, Option.bind_some, if_pos rfl, readTurns,
        Option.map_some, readEnd, if_neg (show ¬ 0 < s'.chunk by omega)]
      exact ⟨_, by rw [hiter', h1]⟩

end FileView

variable {s : FS × (ℕ → List UInt8)} {path : Path} {i n : ℕ}

/-- What is true of the file that was cut, until it is written to again. -/
structure Cut (cfg : Config) (path : Path) (i : ℕ) (c : List UInt8)
    (s : FS × (ℕ → List UInt8)) : Prop where
  keeps : FS.Keeps cfg s.1 s.2
  path : s.1.disk.ino path = some i
  contents : s.2 i = c
  clamped : FileView.Clamped cfg.ioBlockSize c (s.1.file cfg i)

/-- A call that spares the file. -/
lemma Cut.step (h : OnePage cfg) (hlru : cfg.applyLruEviction = false) {c : List UInt8}
    {s s' : FS × (ℕ → List UInt8)} (hs : Cut cfg path i c s) {op : FileOp} (hop : op.Proper cfg s.1)
    (hsp : op.Spares s.1.disk i) (hstep : FileOp.step cfg s op = some s') :
    Cut cfg path i c s' := by
  obtain ⟨fs', res, hrun, hnames, hk, hfile⟩ := hs.keeps.run h op hop (FS.roomy_of_off hlru op)
  rw [FileOp.step, hrun, Option.map_some, Option.some.injEq] at hstep
  rw [← hstep]
  refine ⟨hk, (hnames.ino path).trans hs.path, ?_, ?_⟩
  · rw [← hs.contents]
    exact FileOp.logical_of_spares hsp _ _
  · rcases hfile i hsp with hf | hf
    · rw [hf]
      exact hs.clamped
    · rw [hf, hs.contents]
      exact hs.clamped.cleaned fun _ => le_rfl

/-- **A truncation that shrinks** does what it should exactly when the new size ends a block past
which nothing is cached. -/
theorem shrinkOk_iff (h : OnePage cfg) (hlru : cfg.applyLruEviction = false) (hs : FS.Reached cfg s)
    (hi : s.1.disk.ino path = some i) (hn : n < (s.2 i).length) {fi : Option FileInfo}
    (hfi : FS.TruncateHandle i fi) {io fillIo : WriteIo} (hio : io.Ok) (hfillIo : fillIo.Ok) :
    ∃ fs' r, s.1.lfsTruncate cfg path n fi io fillIo = some (fs', r) ∧
      (ShrinkOk cfg s path i n fs' ↔ cfg.ioBlockSize ∣ n ∧
        ∀ b : ℤ, (n : ℤ) ≤ b * cfg.ioBlockSize →
          s.1.cache.isBlockCached cfg (inodeStr i) b = false) := by
  have hB := h.pos
  have hk := FS.keeps_of_reached h hlru hs
  have hki := hk.file i
  have hle := hki.size_le
  have hsmall := maxSize_le cfg.ioBlockSize
  have h63 := maxSize_le_offT cfg.ioBlockSize
  obtain ⟨fs', r, htrunc, hview, ht, hk'⟩ := hk.truncate h hi (k := n) (by omega) (by omega) hfi hio
    hfillIo (fun _ => FS.enoughIfLru_of_off hlru _ _ _)
    (FileView.Kept.resize (s := (s.1.file cfg i, s.1.free)) hki hB (by omega))
  rw [FileView.fillTo, if_neg (by omega)] at hview
  rw [Bytes.resize_eq_take _ hn.le] at hk'
  have hfile : fs'.file cfg i = s.1.file cfg i := (Prod.mk.inj hview).1
  have hi' : fs'.disk.ino path = some i := (ht.names.ino path).trans hi
  have hcached : ∀ b, fs'.cache.isBlockCached cfg (inodeStr i) b
      = s.1.cache.isBlockCached cfg (inodeStr i) b := by
    intro b
    rw [ht.sound.isBlockCached_eq, hk.sound.isBlockCached_eq, hfile]
  refine ⟨fs', r, htrunc, fun hok => ⟨?_, fun b hb => (hcached b).symm.trans (hok.dropped b hb)⟩,
    ?_⟩
  · -- a read across the new end
    by_contra hdvd
    obtain ⟨fs2, r2, buf2, hread, hr2, -⟩ :=
      hok.reads [] _ trivial rfl (fun _ => 0) 2 (n - 1) none {}
      (by norm_num) (by omega) (fun f hf => by cases hf) (fun _ => rfl)
    have hn0 : n ≠ 0 := fun h0 => hdvd (h0 ▸ dvd_zero _)
    obtain ⟨buf3, hacross⟩ := hki.holds.read_across hB hdvd hn (fun _ => 0)
    obtain ⟨-, hsome⟩ := ht.sound.lfsRead hB hi' (fun _ => 0) (show 0 < 2 by norm_num)
      (show n - 1 + 2 ≤ 2 ^ 64 by omega) (show FS.ReadHandle i none from fun f hf => by cases hf)
      (show FS.ReadIo.Ok {} from fun _ => rfl)
    rw [ht.sizeOf, hfile] at hsome
    obtain ⟨fs4, hread4, -⟩ := hsome 2 buf3 hacross
    rw [hread4, Option.some.injEq, Prod.mk.injEq, Prod.mk.injEq] at hread
    have hlen : (Bytes.slice (s.2 i) (n - 1) (min n (n - 1 + 2) - (n - 1))).length = 1 := by
      rw [Bytes.length_slice]
      omega
    have hres := hread.2.1
    rw [hr2, hlen, FS.writeResult_of_lt (by norm_num), FS.writeResult_of_lt (by norm_num)] at hres
    norm_num at hres
  · rintro ⟨hdvd, hnone⟩
    have hnone' : ∀ b : ℤ, (n : ℤ) ≤ b * cfg.ioBlockSize → (s.1.file cfg i).blocks b = none := by
      intro b hb
      have := hnone b hb
      rwa [hk.sound.isBlockCached_eq, Option.isSome_eq_false_iff, Option.isNone_iff_eq_none] at this
    refine ⟨fun b hb => (hcached b).trans (hnone b hb), ?_⟩
    intro later s' hg hrun buf size offset fi io hsize hw hfi hio
    -- the cut contents are kept by every call of `later`
    have hcut : Cut cfg path i ((s.2 i).take n) (fs', Function.update s.2 i ((s.2 i).take n)) :=
      ⟨hk', hi', Function.update_self _ _ _, by rw [hfile]; exact hki.clamped_take hdvd hn hnone'⟩
    have hcut' : Cut cfg path i ((s.2 i).take n) s' :=
      (Runs.Reach.of_run (.init rfl) hg hrun).invariant
        (P := fun t => Cut cfg path i ((s.2 i).take n) t) (fun t h0 => by rw [← h0]; exact hcut)
        fun t op t' hP hop hstep => hP.step h hlru hop.1 hop.2 hstep
    obtain ⟨fs'', r', buf', hread, -, -, -, -, hexact⟩ := hcut'.keeps.read hB hcut'.path
      (hcut'.keeps.file i).holds (hcut'.keeps.file i).bounded buf hsize
        (hw.trans (by norm_num)) hfi hio
    obtain ⟨h1, h2⟩ := hexact (by rw [hcut'.contents]; exact hcut'.clamped)
    have hlen : ((s.2 i).take n).length = n := List.length_take_of_le hn.le
    have hcount : min n (offset + size) - offset = min size (n - offset) := by omega
    have hslice : Bytes.slice ((s.2 i).take n) offset size
        = Bytes.slice (s.2 i) offset (min n (offset + size) - offset) := by
      rw [Bytes.slice, Bytes.slice, List.drop_take, List.take_take, hcount]
    rw [hcut'.contents, hlen] at h1 h2
    refine ⟨fs'', r', buf', hread, ?_, ?_⟩
    · rw [h1, ← hcount, Bytes.length_slice]
      congr 1
      omega
    · rw [hcount, h2, hslice, hcount]

/-! ### The written block, cut inside and before -/

/-- A file of two blocks. -/
def eightBytes : Disk := { oneFile with bytes := fun _ => [1, 2, 3, 4, 5, 6, 7, 8] }

/-- The write of its first block. -/
def wroteFirst : Option (FS × (ℕ → List UInt8)) :=
  FileOp.step (.tiny 2 false) (⟨.new (.tiny 2 false), eightBytes⟩, eightBytes.bytes) writeAbcd

lemma reached_wroteFirst {s : FS × (ℕ → List UInt8)} (hs : wroteFirst = some s) :
    FS.Reached (.tiny 2 false) s := by
  have hproper : writeAbcd.Proper (.tiny 2 false) ⟨.new (.tiny 2 false), eightBytes⟩ :=
    ⟨1, by decide, by decide, by decide, ⟨rfl, rfl, rfl⟩, ⟨rfl, fun _ => rfl, fun _ => rfl⟩,
      ⟨rfl, fun _ => rfl, fun _ => rfl⟩⟩
  have hstart : FS.Start (.tiny 2 false) (⟨.new (.tiny 2 false), eightBytes⟩, eightBytes.bytes) :=
    ⟨eightBytes, fun _ => by norm_num [eightBytes, maxSize, Config.tiny], rfl⟩
  exact .step (.init hstart) hproper hs

/-- The file is cut after the first block, which is cached. -/
theorem shrinkOk_oneBlock : ∃ s fs' r, wroteFirst = some s ∧ s.2 1 = [97, 98, 99, 100, 5, 6, 7, 8] ∧
    s.1.cache.isBlockCached (.tiny 2 false) (inodeStr 1) 0 = true ∧
    s.1.lfsTruncate (.tiny 2 false) ["f"] 4 none {} {} = some (fs', r) ∧
    ShrinkOk (.tiny 2 false) s ["f"] 1 4 fs' := by
  have hrun : wroteFirst.map (fun s => (s.1.disk.ino ["f"], s.2 1,
      s.1.cache.isBlockCached (.tiny 2 false) (inodeStr 1) 0,
      (s.1.cache.contents.lookup (inodeStr 1)).map fun it => it.data.blocks.keys))
      = some (some 1, [97, 98, 99, 100, 5, 6, 7, 8], true, some [0]) := by decide +kernel
  obtain ⟨s, hs, hval⟩ := Option.map_eq_some_iff.mp hrun
  simp only [Prod.mk.injEq] at hval
  obtain ⟨hi, hc, hcached, hkeys⟩ := hval
  have hlen : 4 < (s.2 1).length := by rw [hc]; decide
  have hfi : FS.TruncateHandle 1 none := fun f hf => by cases hf
  have hio : WriteIo.Ok {} := ⟨rfl, fun _ => rfl, fun _ => rfl⟩
  obtain ⟨fs', r, htrunc, hiff⟩ :=
    shrinkOk_iff (Config.onePage_tiny 2 false) rfl (reached_wroteFirst hs) hi hlen hfi hio hio
  refine ⟨s, fs', r, hs, hc, hcached, htrunc, hiff.mpr ⟨dvd_rfl, fun b hb => ?_⟩⟩
  obtain ⟨it, hit, hkeys⟩ := Option.map_eq_some_iff.mp hkeys
  have hb4 : (4 : ℤ) ≤ b * 4 := hb
  have hnone : it.data.blocks.lookup b = none := by
    rw [AList.lookup_eq_none]
    intro hmem
    have hb0 : b ∈ [(0 : ℤ)] := hkeys ▸ AList.mem_keys.mp hmem
    rw [List.mem_singleton] at hb0
    omega
  rw [Cache.isBlockCached, hit]
  dsimp only
  rw [Data.getPageId, hnone]
  rfl

/-- A file of four bytes that is cut to two: a read still returns four. -/
theorem shrink_reads_past : ∃ s fs' r, FS.Reached (.tiny 2 false) s ∧
    s.1.disk.ino ["f"] = some 1 ∧ s.2 1 = [97, 98, 99, 100] ∧
    s.1.lfsTruncate (.tiny 2 false) ["f"] 2 none {} {} = some (fs', r) ∧
    ¬ ShrinkOk (.tiny 2 false) s ["f"] 1 2 fs' := by
  have hrun : (written.bind fun s =>
      (s.1.lfsTruncate (.tiny 2 false) ["f"] 2 none {} {}).bind fun r =>
      (r.1.lfsRead (.tiny 2 false) ["f"] (fun _ => 0) 4 0 none {}).map fun q =>
        (s.1.disk.ino ["f"], s.2 1, q.2.1)) = some (some 1, [97, 98, 99, 100], 4) := by
          decide +kernel
  obtain ⟨s, hs, hrun⟩ := Option.bind_eq_some_iff.mp hrun
  obtain ⟨⟨fs', r⟩, htrunc, hrun⟩ := Option.bind_eq_some_iff.mp hrun
  obtain ⟨q, hread, hval⟩ := Option.map_eq_some_iff.mp hrun
  simp only [Prod.mk.injEq] at hval
  obtain ⟨hi, hc, hq⟩ := hval
  refine ⟨s, fs', r, reached_written hs, hi, hc, htrunc, fun hok => ?_⟩
  obtain ⟨fs2, r2, buf2, hread2, hr2, -⟩ := hok.reads [] _ trivial rfl (fun _ => 0) 4 0 none {}
    (by norm_num) (by norm_num) (fun f hf => by cases hf) (fun _ => rfl)
  rw [hread, Option.some.injEq] at hread2
  rw [hread2, hr2, hc] at hq
  have h2 : FS.writeResult (.tiny 2 false) 2 = 4 := hq
  rw [FS.writeResult_of_lt (by norm_num)] at h2
  exact absurd h2 (by decide)

end LazyFS
