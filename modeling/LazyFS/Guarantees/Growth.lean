import LazyFS.File.Intact

/-!
**A truncation that grows** a file, by any number of bytes.

* `Grown`: the file is its old contents and zeros, and the backing file is left alone until it is
  written back.
* `FileView.disk_growTo_iff`: growing leaves the backing file alone when the count of the zeros is
  an `int`, or the backing file has the new size already.
* `grown_iff`: files of at most `2^32` blocks are grown so exactly then; in larger ones blocks whose
  numbers are the same `int` share their bytes.
* `grows_at_once`: the backing file grows with the truncation.
-/

namespace LazyFS

open Engine

variable {cfg : Config}

/-- The file system `fs'` after the file `i` with the contents `s.2 i` was grown to `n` bytes. -/
structure Grown (cfg : Config) (s : FS × (ℕ → List UInt8)) (path : Path) (i n : ℕ)
    (fs' : FS) : Prop where
  size : ∃ fs'' st, fs'.lfsGetattr cfg path = some (fs'', .reg st) ∧ st.stSize = n
  /-- The old contents and zeros are read. -/
  reads : ∀ (buf : Mem) (size offset : ℕ) (fi : Option FileInfo) (io : ReadIo), 0 < size →
    size < 2 ^ 31 → offset + size ≤ n → FS.ReadHandle i fi → FS.ReadIo.Ok io →
    ∃ fs'' buf', fs'.lfsRead cfg path buf size offset fi io = some (fs'', (size : ℤ), buf') ∧
      buf'.read 0 size
        = Bytes.slice (s.2 i ++ List.replicate (n - (s.2 i).length) 0) offset size
  /-- The backing file is as it was, and stays so until it is written back. -/
  backing : fs'.disk.bytes i = s.1.disk.bytes i
  later : ∀ (later : List FileOp) (s' : FS × (ℕ → List UInt8)),
    Runs.Guarded (FileOp.step cfg) (fun s op => op.Fits (2 ^ 32) cfg s.1 ∧ op.Quiet cfg s.1 i)
      (fs', Function.update s.2 i (s.2 i ++ List.replicate (n - (s.2 i).length) 0)) later →
    Runs.run (FileOp.step cfg)
      (fs', Function.update s.2 i (s.2 i ++ List.replicate (n - (s.2 i).length) 0)) later
        = some s' →
    s'.1.disk.bytes i = s.1.disk.bytes i

/-- The count of a write is its size when that is an `int`. -/
lemma FS.writeResult_eq_iff (herrno : 0 ≤ cfg.errno) {size : ℕ} (hs : 0 < size) :
    FS.writeResult cfg size = size ↔ size < 2 ^ 31 := by
  refine ⟨fun h => ?_, FS.writeResult_of_lt⟩
  rw [FS.writeResult] at h
  split_ifs at h
  · omega
  · exact toInt_eq_iff.mp h

namespace FileView

variable {B size n x y : ℕ} {f : FileView} {s : FileView × ℕ}

/-- **The backing file of a file that grows.** -/
lemma disk_growTo_iff (herrno : 0 ≤ cfg.errno) (hlt : size < n) (hroom : Roomy B size n s) :
    (growTo cfg B size n s).1.disk = s.1.disk ↔ n - size < 2 ^ 31 ∨ s.1.disk.length = n := by
  have hdisk : (fillTo B size n s).1.disk = s.1.disk := Roomy.disk_fillTo fun _ => hroom
  have hcount := FS.writeResult_eq_iff herrno (show 0 < n - size by omega)
  rw [growTo]
  split_ifs with hres
  · dsimp only
    rw [hdisk, ← hcount, or_iff_right hres.2]
    constructor
    · intro h
      rw [← h, Bytes.length_resize]
    · rintro rfl
      exact Bytes.resize_length _
  · refine iff_of_true hdisk (.inl (hcount.mp ?_))
    exact not_not.mp fun hne => hres ⟨hlt, hne⟩

/-- The blocks of the new bytes are resident. -/
lemma isSome_growTo (hlt : size < n) (hroom : Roomy B size n s) {k : ℕ}
    (hk : k ∈ blocksOf B size n) : ((growTo cfg B size n s).1.blocks (toInt k)).isSome := by
  have hfill : ((fillTo B size n s).1.blocks (toInt k)).isSome := by
    have hlen : size + (List.replicate (n - size) (0 : UInt8)).length = n := by
      rw [List.length_replicate]
      omega
    rw [fillTo, if_pos hlt, writeAll, hlen]
    exact isSome_turns_of_enough _ _ (fun m hm => mem_ids hm) hroom hk
  rw [growTo]
  split_ifs
  · exact hfill
  · exact hfill

/-- A byte of a resident block is read from its place in the block. -/
lemma read_one (hB : 0 < B) (hx : x < size) {v : BlockView}
    (hv : f.blocks (toInt (x / B : ℕ)) = some v) (buf : Mem) :
    f.read B size x 1 buf = (if min v.readableTo (x % B : ℕ) - (x % B : ℕ) + 1 < 0 then none
      else some ((min v.readableTo (x % B : ℕ) - (x % B : ℕ) + 1).toNat,
        memcpy buf 0 (.ofList v.bytes) (x % B : ℕ)
          (min v.readableTo (x % B : ℕ) - (x % B : ℕ) + 1))) := by
  have hdiv : x / B * B + x % B = x := Nat.div_add_mod' x B
  have hmod : x % B < B := Nat.mod_lt x hB
  have hn1 : (x / B + 1) * B = x / B * B + B := by rw [Nat.add_mul, one_mul]
  have hblocks : blocksOf B x (x + 1) = [x / B] := by
    rw [blocksOf, Nat.add_sub_cancel, Nat.add_sub_cancel_left]
    rfl
  have hfrom : segFrom B x (x / B) - x / B * B = x % B := by
    rw [segFrom]
    omega
  have hto : ((segTo B (x + 1) (x / B) : ℕ) : ℤ) - (x / B : ℕ) * B - 1 = (x % B : ℕ) := by
    rw [segTo, ← Nat.cast_mul]
    omega
  have hflush : (⟨buf, 0, 0, x⟩ : ReadView).flushAt B (x + 1) (x / B) f.disk = ⟨buf, 0, 0, x⟩ := by
    rw [ReadView.flushAt, if_neg (lt_irrefl _), if_neg (by omega)]
  rw [read, if_neg (by omega), hblocks, readTurns, readTurn, if_neg (by omega), hv]
  dsimp only
  rw [hflush, if_neg (by dsimp only; omega), ReadView.copy, hfrom, hto]
  split_ifs with hlen hzero
  · rfl
  · omega
  · simp [readTurns, readEnd]

/-- Bytes that have the same place in blocks of one id are read alike. -/
lemma read_one_congr (hB : 0 < B) (hx : x < size) (hy : y < size)
    (hid : toInt (x / B : ℕ) = toInt (y / B : ℕ)) (hmod : x % B = y % B)
    (hv : (f.blocks (toInt (x / B : ℕ))).isSome) (buf : Mem) :
    f.read B size x 1 buf = f.read B size y 1 buf := by
  obtain ⟨v, hv⟩ := Option.isSome_iff_exists.mp hv
  rw [read_one hB hx hv, read_one hB hy (by rw [← hid]; exact hv), hmod]

end FileView

/-! ### The truncation -/

variable {s : FS × (ℕ → List UInt8)} {fs' : FS} {path : Path} {i n : ℕ}

lemma resize_eq_append {c : List UInt8} (h : c.length ≤ n) :
    Bytes.resize c n = c ++ List.replicate (n - c.length) 0 := by
  rw [Bytes.resize, List.take_of_length_le h]

/-- A file of at most `2^32` blocks is grown when its backing file is left alone. -/
lemma FS.Shows.grown (h : OnePage cfg) (hlru : cfg.applyLruEviction = false)
    (hs : FS.Intact (2 ^ 32) cfg fs' (Function.update s.2 i (Bytes.resize (s.2 i) n)))
    (hi : fs'.disk.ino path = some i) (hn : n ≤ FileView.idSpan cfg.ioBlockSize) (hn63 : n < 2 ^ 63)
    (hlt : (s.2 i).length < n) (hdisk : fs'.disk.bytes i = s.1.disk.bytes i) :
    Grown cfg s path i n fs' := by
  have hresize := resize_eq_append hlt.le
  have hlen : (Function.update s.2 i (Bytes.resize (s.2 i) n) i).length = n := by
    rw [Function.update_self, Bytes.length_resize]
  refine ⟨?_, fun buf size offset fi io hsize h31 hin hfi hio => ?_, hdisk,
    fun later s' hg hrun => ?_⟩
  · obtain ⟨fs'', st, hget, hst, -⟩ := hs.getattr hi
    exact ⟨fs'', st, hget, hst.trans hlen⟩
  · have hfile := hs.file i
    obtain ⟨buf', hread, hbuf⟩ :=
      (hfile.holds_of_le (hlen.trans_le hn)).read_within hfile.bounded h.pos
      hsize (by rw [hlen]; exact hin) buf
    rw [← hs.size i] at hread
    obtain ⟨fs'', hlfs, -⟩ := (hs.sound.lfsRead h.pos hi buf hsize (by omega) hfi hio).2 _ _ hread
    rw [FS.writeResult_of_lt h31] at hlfs
    rw [Function.update_self, hresize] at hbuf
    exact ⟨fs'', buf', hlfs, hbuf⟩
  · rw [← hresize] at hg hrun
    rw [← hdisk]
    have hreach : Runs.Reach _ _ (· = (fs', Function.update s.2 i (Bytes.resize (s.2 i) n))) s' :=
      Runs.Reach.of_run (.init rfl) hg hrun
    have hinv := hreach.invariant
      (P := fun s => FS.Intact (2 ^ 32) cfg s.1 s.2 ∧ s.1.disk.bytes i = fs'.disk.bytes i)
      (by rintro _ rfl; exact ⟨hs, rfl⟩) (fun t op t' ht hop hstep => ?_)
    · exact hinv.2
    · rw [FileOp.step, Option.map_eq_some_iff] at hstep
      obtain ⟨r, hr, rfl⟩ := hstep
      obtain ⟨h1, h2⟩ := ht.1.run_fits h hlru le_rfl op hop.1 hr
      exact ⟨h1, (h2 i hop.2).trans ht.2⟩

/-- Bytes of a grown file that have the same place in blocks of one id are the same. -/
lemma Grown.same_byte (hg : Grown cfg s path i n fs') (h : OnePage cfg) (hS : fs'.Sound cfg)
    (hi : fs'.disk.ino path = some i) (hsize : fs'.sizeOf i = n) (hn : n < 2 ^ 63) {x y : ℕ}
    (hx : x < n) (hy : y < n)
    (hid : toInt (x / cfg.ioBlockSize : ℕ) = toInt (y / cfg.ioBlockSize : ℕ))
    (hmod : x % cfg.ioBlockSize = y % cfg.ioBlockSize)
    (hv : ((fs'.file cfg i).blocks (toInt (x / cfg.ioBlockSize : ℕ))).isSome) :
    (s.2 i ++ List.replicate (n - (s.2 i).length) 0)[x]?
      = (s.2 i ++ List.replicate (n - (s.2 i).length) 0)[y]? := by
  have hread : ∀ z < n, ∃ fs'' buf', fs'.lfsRead cfg path (fun _ => 0) 1 z none {}
      = some (fs'', 1, buf') ∧
      buf'.read 0 1 = Bytes.slice (s.2 i ++ List.replicate (n - (s.2 i).length) 0) z 1 :=
      fun z hz =>
    hg.reads _ 1 z none {} one_pos (by norm_num) hz (fun _ hf => (by cases hf)) fun _ => rfl
  obtain ⟨fs1, b1, hr1, hb1⟩ := hread x hx
  obtain ⟨fs2, b2, hr2, hb2⟩ := hread y hy
  have hview := FileView.read_one_congr h.pos (hsize ▸ hx) (hsize ▸ hy) hid hmod hv (fun _ => 0)
  have hok : FS.ReadHandle i none := fun _ hf => by cases hf
  have hio : FS.ReadIo.Ok {} := fun _ => rfl
  obtain ⟨hnone, hsome⟩ :=
    hS.lfsRead h.pos hi (fun _ => 0) one_pos (by omega : x + 1 ≤ 2 ^ 64) hok hio
  obtain ⟨-, hsome'⟩ := hS.lfsRead h.pos hi (fun _ => 0) one_pos (by omega : y + 1 ≤ 2 ^ 64) hok hio
  cases hk : (fs'.file cfg i).read cfg.ioBlockSize (fs'.sizeOf i) x 1 (fun _ => 0) with
  | none =>
      rw [hnone hk] at hr1
      cases hr1
  | some k =>
      obtain ⟨fs3, h3, -⟩ := hsome k.1 k.2 hk
      obtain ⟨fs4, h4, -⟩ := hsome' k.1 k.2 (by rw [← hview, hk])
      rw [hr1, Option.some.injEq, Prod.mk.injEq, Prod.mk.injEq] at h3
      rw [hr2, Option.some.injEq, Prod.mk.injEq, Prod.mk.injEq] at h4
      rw [h3.2.2, ← h4.2.2, hb2] at hb1
      have hget := congrArg (fun l : List UInt8 => (l)[0]?) hb1
      simpa only [Bytes.getElem?_slice _ one_pos, add_zero] using hget.symm

/-- **A growing truncation** of a file of at most `2^32` blocks makes it its old contents and zeros
and leaves its backing file alone exactly when the count of the zeros is an `int`, or the backing
file has the new size already.  It does so in larger files only then, too, and only when the bytes
that the ids of the new blocks mix up are the same. -/
theorem grown_iff (h : OnePage cfg) (hlru : cfg.applyLruEviction = false) (herrno : 0 ≤ cfg.errno)
    (hs : FS.IntactReach (2 ^ 32) cfg s) (hi : s.1.disk.ino path = some i)
    (hlt : (s.2 i).length < n) (hn : n < 2 ^ 63) {fi : Option FileInfo}
    (hfi : FS.TruncateHandle i fi) {io fillIo : WriteIo} (hio : io.Ok) (hfillIo : fillIo.Ok)
    (hroom : FileView.Roomy cfg.ioBlockSize (s.2 i).length n (s.1.file cfg i, s.1.free)) :
    ∃ fs' r, s.1.lfsTruncate cfg path n fi io fillIo = some (fs', r) ∧
      (n ≤ 2 ^ 32 * cfg.ioBlockSize →
        (Grown cfg s path i n fs' ↔
          n - (s.2 i).length < 2 ^ 31 ∨ (s.1.disk.bytes i).length = n)) ∧
      (Grown cfg s path i n fs' →
        (n - (s.2 i).length < 2 ^ 31 ∨ (s.1.disk.bytes i).length = n) ∧
        ∀ x y, x < n → y < n →
          x / cfg.ioBlockSize ∈ blocksOf cfg.ioBlockSize (s.2 i).length n →
          toInt (x / cfg.ioBlockSize : ℕ) = toInt (y / cfg.ioBlockSize : ℕ) →
          x % cfg.ioBlockSize = y % cfg.ioBlockSize →
          (s.2 i ++ List.replicate (n - (s.2 i).length) 0)[x]?
            = (s.2 i ++ List.replicate (n - (s.2 i).length) 0)[y]?) := by
  have hI := FS.intact_of_reach h hlru le_rfl hs
  obtain ⟨fs', r, htrunc, ht, hview⟩ :=
    hI.sound.lfsTruncate_any h hi (hn.le.trans (by norm_num)) hfi hio
    hfillIo fun _ => FS.enoughIfLru_of_off hlru _ _ _
  rw [hI.size] at hview
  have hi' : fs'.disk.ino path = some i := by rw [ht.names.ino]; exact hi
  -- the disk stays exactly under the condition
  have hdisk : fs'.disk.bytes i = s.1.disk.bytes i ↔
      n - (s.2 i).length < 2 ^ 31 ∨ (s.1.disk.bytes i).length = n := by
    have hfile : fs'.disk.bytes i = (FileView.growTo cfg cfg.ioBlockSize (s.2 i).length n
        (s.1.file cfg i, s.1.free)).1.disk := by
      rw [← hview]
      rfl
    rw [hfile]
    exact FileView.disk_growTo_iff herrno hlt hroom
  refine ⟨fs', r, htrunc, fun hspan => ⟨fun hg => hdisk.mp hg.backing, fun hc => ?_⟩,
    fun hg => ⟨hdisk.mp hg.backing, fun x y hx hy hk hid hmod => ?_⟩⟩
  · -- it is enough, while the block ids tell the blocks apart
    have hfile : FileView.Intact (2 ^ 32) cfg.ioBlockSize (Bytes.resize (s.2 i) n)
        (fs'.file cfg i) := by
      have hgrow := FileView.Intact.growTo (s := (s.1.file cfg i, s.1.free))
        cfg (hI.file i) le_rfl h.pos
        (.inr hspan)
      rwa [← hview] at hgrow
    have hs' := hI.touched ht (Bytes.length_resize _ _).symm hfile
    exact hs'.grown h hlru hi' hspan hn hlt (hdisk.mpr hc)
  · -- two bytes under one id are one byte of the cache
    refine hg.same_byte h ht.sound hi' ht.sizeOf hn hx hy hid hmod ?_
    have hres : ((FileView.growTo cfg cfg.ioBlockSize (s.2 i).length n
        (s.1.file cfg i, s.1.free)).1.blocks (toInt (x / cfg.ioBlockSize : ℕ))).isSome :=
      FileView.isSome_growTo hlt hroom hk
    rwa [← hview] at hres

/-- The empty file grown to one block. -/
theorem grown_iff_oneBlock : ∃ fs' r,
    FS.lfsTruncate (.tiny 2 false) ⟨.new (.tiny 2 false), oneFile⟩ ["f"] 4 none {}
    {} = some (fs', r) ∧
      Grown (.tiny 2 false) (⟨.new (.tiny 2 false), oneFile⟩, oneFile.bytes) ["f"] 1 4 fs' := by
  have hi : oneFile.ino ["f"] = some 1 := rfl
  have hfi : FS.TruncateHandle 1 none := fun _ hf => by cases hf
  have hio : WriteIo.Ok {} := ⟨rfl, fun _ => rfl, fun _ => rfl⟩
  obtain ⟨fs', r, htrunc, hiff, -⟩ :=
    grown_iff (n := 4) (Config.onePage_tiny 2 false) rfl (by decide)
    (.init ⟨oneFile, rfl⟩) hi (by decide) (by norm_num) hfi hio hio (by decide +kernel)
  exact ⟨fs', r, htrunc, (hiff (by decide)).mpr (.inl (by decide))⟩

/-! ### The fallback -/

/-- Blocks of one mebibyte, and as many pages as `2^31` bytes need. -/
def mebiBlocks : Config :=
  { cacheNrPages := 2 ^ 11, cachePageSize := 2 ^ 20, ioBlockSize := 2 ^ 20 }

/-- The empty file grown to `2^31` bytes: the pool has room for them, and the backing file has them
at once. -/
theorem grows_at_once : ∃ fs' r,
    FS.lfsTruncate mebiBlocks ⟨.new mebiBlocks, oneFile⟩ ["f"] (2 ^ 31) none {} {} = some (fs', r) ∧
      FileView.Roomy mebiBlocks.ioBlockSize 0 (2 ^ 31)
        (FS.file mebiBlocks ⟨.new mebiBlocks, oneFile⟩ 1, FS.free ⟨.new mebiBlocks, oneFile⟩) ∧
      oneFile.bytes 1 = [] ∧ (fs'.disk.bytes 1).length = 2 ^ 31 ∧
      ¬ Grown mebiBlocks (⟨.new mebiBlocks, oneFile⟩, oneFile.bytes) ["f"] 1 (2 ^ 31) fs' := by
  have h : OnePage mebiBlocks := ⟨rfl, by norm_num [mebiBlocks]⟩
  have hS : FS.Sound mebiBlocks ⟨.new mebiBlocks, oneFile⟩ :=
    (FS.shows_new (P := fun _ _ => True) h oneFile fun _ => trivial).sound
  have hroom : FileView.Roomy mebiBlocks.ioBlockSize 0 (2 ^ 31)
      (FS.file mebiBlocks ⟨.new mebiBlocks, oneFile⟩ 1, FS.free ⟨.new mebiBlocks, oneFile⟩) := by
    refine FileView.roomy_of_le ?_
    rw [blocksOf, List.length_range', FS.free_new]
    norm_num [mebiBlocks]
  have hi : oneFile.ino ["f"] = some 1 := rfl
  have hfi : FS.TruncateHandle 1 none := fun _ hf => by cases hf
  have hio : WriteIo.Ok {} := ⟨rfl, fun _ => rfl, fun _ => rfl⟩
  obtain ⟨fs', r, htrunc, -, hview⟩ :=
    hS.lfsTruncate_any h hi (by norm_num : 2 ^ 31 ≤ 2 ^ 64) hfi hio hio
    fun _ => FS.enoughIfLru_of_off rfl _ _ _
  have hsize : FS.sizeOf ⟨.new mebiBlocks, oneFile⟩ 1 = 0 := rfl
  rw [hsize] at hview
  have hcount : FS.writeResult mebiBlocks (2 ^ 31 - 0) ≠ ((2 ^ 31 - 0 : ℕ) : ℤ) := by
    rw [Nat.sub_zero, Ne, FS.writeResult_eq_iff (by decide) (by norm_num)]
    exact lt_irrefl _
  rw [FileView.growTo, if_pos ⟨by norm_num, hcount⟩] at hview
  have hlen : (fs'.disk.bytes 1).length = 2 ^ 31 := by
    have hdisk := congrArg (fun v : FileView × ℕ => v.1.disk.length) hview
    dsimp only at hdisk
    rw [Bytes.length_resize] at hdisk
    exact hdisk
  refine ⟨fs', r, htrunc, hroom, rfl, hlen, fun hg => ?_⟩
  have hback : fs'.disk.bytes 1 = [] := hg.backing
  rw [hback] at hlen
  norm_num at hlen

end LazyFS
