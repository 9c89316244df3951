import LazyFS.File.Opened
import LazyFS.File.Request
import LazyFS.File.Pool

/-!
`lfs_write` on the view of a file.

* `FileView.Served`, `FileView.ServedAll`: the backing calls that a write makes succeed in full.
* `WriteOk`: they go to the file `i`.
* `Sound.writeBlock`: one turn of the block loop is `FileView.writeBlock`, and `Sound.writeLoop` is
  the loop; a block finds a page when it is resident or a page is free.
* `FS.missing`: how many blocks of a set are not resident; as long as they are not more than the
  free pages every block finds a page.
-/

namespace LazyFS

open Engine

variable {cfg : Config}

namespace FileView

/-- The backing calls that a write makes for a block succeed in full.  None is made for a resident
block; for another one the file is opened, its old bytes are read if there are some and the pool was
not full at the start, and it is written through when no page is free. -/
def Served (B known : ℕ) (full : Bool) (io : WriteIo) (s : FileView × ℕ) (n : ℕ) : Prop :=
  s.1.blocks (toInt n) = none → io.openRdonly = true ∧
    (n * B < known → full = false → io.pread n = .full) ∧ (s.2 = 0 → io.pwrite n = .full)

/-- The same for the blocks of a write, each in its turn. -/
def ServedAll (B known : ℕ) (full : Bool) (io : WriteIo) (offset : ℕ) (src : List UInt8) :
    List ℕ → FileView × ℕ → Prop
  | [], _ => True
  | n :: l, s => Served B known full io s n ∧
      ServedAll B known full io offset src l (turn B known offset src s n)

/-- Calls that all succeed. -/
lemma servedAll_of_full {B known offset : ℕ} {full : Bool} {io : WriteIo} {src : List UInt8}
    (ho : io.openRdonly = true) (hr : ∀ n, io.pread n = .full) (hw : ∀ n, io.pwrite n = .full)
    (l : List ℕ) : ∀ s, ServedAll B known full io offset src l s := by
  induction l with
  | nil => exact fun _ => trivial
  | cons n l ih => exact fun s => ⟨fun _ => ⟨ho, fun _ _ => hr n, fun _ => hw n⟩, ih _⟩

end FileView

namespace FS

variable {fs fs' fs'' : FS} {i : ℕ}

/-- The number of free pages of the engine. -/
def free (fs : FS) : ℕ := fs.cache.engine.freePages.length

lemma free_eq_zero : fs.free = 0 ↔ fs.cache.engine.freePages = [] := List.length_eq_zero_iff

/-! ### One block put or written through -/

/-- A block put on the view of the file. -/
lemma Sound.putBlock (h : OnePage cfg) (hS : fs.Sound cfg) (hm : (fs.metaOf i).isSome) (b : ℤ)
    {start : ℕ} (bp : BlockPut) (hstart : bp.offStart = start)
    (hfit : start + bp.len ≤ cfg.ioBlockSize) (hrs : bp.rsTo = start + bp.len - 1)
    (hno : cfg.applyLruEviction = true → fs.free = 0 → ((fs.file cfg i).blocks b).isSome) :
    ∃ fs' stored, fs.putBlock cfg (inodeStr i) b bp = some (fs', stored) ∧ Changed cfg i fs fs' ∧
      fs'.file cfg i = (if stored then (fs.file cfg i).setBlock b
          ((((fs.file cfg i).blocks b).getD (.zero cfg.ioBlockSize)).overwrite start
            (bp.data.read 0 bp.len)) else fs.file cfg i) ∧
      (stored = true ↔ ((fs.file cfg i).blocks b).isSome ∨ fs.free ≠ 0) ∧
      fs'.free = if ((fs.file cfg i).blocks b).isSome then fs.free else fs.free - 1 := by
  obtain ⟨tbl, hG⟩ := hS.good
  obtain ⟨it, hit⟩ : ∃ it, fs.cache.contents.lookup (inodeStr i) = some it := by
    rw [FS.metaOf, Cache.getContentMetadata, Option.isSome_map, Option.isSome_iff_exists] at hm
    exact hm
  obtain ⟨c', stored, hput, hok⟩ := hG.putBlock h (inodeStr_ne_none i) hit b bp hstart hfit hrs
    .opWrite fs.disk fun hl hnil => hno hl (free_eq_zero.mpr hnil)
  refine ⟨⟨c', fs.disk⟩, stored, ?_, ⟨⟨hok.good, ?_, fun s hs => ?_⟩, .refl _, hok.mapping,
    fun j => hok.metadata _, fun j hj => ?_⟩, ?_, ?_, hok.freePages⟩
  · rw [FS.putBlock, hput]
    simp
  · rw [hok.mapping]
    exact hS.named
  · refine hS.keys s ?_
    rwa [← hok.metadata]
  · have hne : inodeStr j ≠ inodeStr i := fun heq => hj (inodeStr_injective heq)
    simp only [FS.file, hok.view, hne, false_and, if_false]
  · cases stored with
    | true =>
        rw [if_pos rfl, FileView.setBlock]
        simp only [FS.file, hok.view, true_and, and_true]
        congr 1
        funext b'
        by_cases hb : b' = b
        · rw [if_pos hb, hb, Function.update_self]
        · rw [if_neg hb, Function.update_of_ne hb]
    | false =>
        simp only [FS.file, hok.view, Bool.false_eq_true, and_false, if_false]
  · rw [Ne, free_eq_zero]
    exact hok.stored_iff

/-- What does not change in the loop of a write whose calls go to the file `i`. -/
structure WriteOk (w : WriteCtx) (i : ℕ) : Prop where
  inode : w.inode = inodeStr i
  fd : w.fd.ino = i ∧ w.fd.writable = true
  caching : w.io.openRdonly = true → ∃ fd, w.fdCaching = some fd ∧ fd.ino = i ∧ fd.readable = true
  size_pos : 0 < w.size
  no_wrap : w.offset + w.size ≤ 2 ^ 64

/-- The bytes of a file in the backing file system replaced. -/
lemma Sound.setBytes (hS : fs.Sound cfg) (i : ℕ) (c : List UInt8) :
    Changed cfg i fs ⟨fs.cache, fs.disk.setBytes i c⟩ ∧
      FS.file cfg ⟨fs.cache, fs.disk.setBytes i c⟩ i = { fs.file cfg i with disk := c } := by
  refine ⟨⟨⟨hS.good, hS.named, hS.keys⟩, .setBytes _ _ _, rfl, fun _ => rfl, fun j hj => ?_⟩, ?_⟩
  · rw [FS.file, FS.file]
    dsimp only
    rw [Disk.bytes_setBytes_ne _ _ hj]
  · rw [FS.file, FS.file]
    dsimp only
    rw [Disk.bytes_setBytes_self]

variable {w : WriteCtx} {cur : ℕ}

/-- A block written to the backing file. -/
lemma WriteOk.writeThrough (hw : WriteOk w i) (fs : FS) {cur : ℕ} (hp : w.io.pwrite cur = .full)
    (b : BlockPut) {start : ℕ} (hstart : b.offStart = start) :
    fs.writeThrough cfg w cur b = (⟨fs.cache, fs.disk.setBytes i
      (Bytes.write (fs.disk.bytes i) (cur * cfg.ioBlockSize + start) (b.data.read 0 b.len))⟩,
      true) := by
  have hoff : (cur : ℤ) * cfg.ioBlockSize + b.offStart
      = ((cur * cfg.ioBlockSize + start : ℕ) : ℤ) := by
    rw [hstart]
    push_cast
    ring
  rw [FS.writeThrough, hp, hoff, Disk.pwrite_full _ hw.fd.2, hw.fd.1]
  simp

lemma putOrWrite_eq (fs : FS) (w : WriteCtx) (cur : ℕ) (bp : BlockPut) (full : Bool) :
    fs.putOrWrite cfg w cur bp full
      = (if full then some (fs, false) else fs.putBlock cfg w.inode (toInt cur) bp).bind fun r =>
          if r.2 then some (r.1, true) else some (r.1.writeThrough cfg w cur bp) := by
  cases full <;> rfl

/-- A block that is resident is put. -/
lemma Sound.putOrWrite_some (h : OnePage cfg) (hw : WriteOk w i) (hS : fs.Sound cfg)
    (hm : (fs.metaOf i).isSome) {v : BlockView} (hv : (fs.file cfg i).blocks (toInt cur) = some v)
    (bp : BlockPut) {start : ℕ} (hstart : bp.offStart = start)
    (hfit : start + bp.len ≤ cfg.ioBlockSize) (hrs : bp.rsTo = start + bp.len - 1) :
    ∃ fs', fs.putOrWrite cfg w cur bp false = some (fs', true) ∧ Changed cfg i fs fs' ∧
      fs'.file cfg i = (fs.file cfg i).setBlock (toInt cur)
        (v.overwrite start (bp.data.read 0 bp.len)) ∧ fs'.free = fs.free := by
  have hsome : ((fs.file cfg i).blocks (toInt cur)).isSome := by rw [hv]; rfl
  obtain ⟨fs', stored, hput, hch, hfile, hst, hfree⟩ :=
    hS.putBlock h hm (toInt cur) bp hstart hfit hrs fun _ _ => hsome
  have hstored : stored = true := hst.mpr (.inl hsome)
  rw [hstored] at hput hfile
  rw [if_pos rfl, hv, Option.getD_some] at hfile
  rw [if_pos hsome] at hfree
  refine ⟨fs', ?_, hch, hfile, hfree⟩
  rw [putOrWrite_eq, if_neg (by simp), hw.inode, hput, Option.bind_some, if_pos rfl]

/-- What is found of an uncached block. -/
lemma WriteOk.pread_eq (hw : WriteOk w i) (fs : FS) {cur : ℕ} (needsPread : Bool)
    (ho : w.io.openRdonly = true) (hp : needsPread = true → w.io.pread cur = .full)
    {pr : List UInt8} (hpr : pr = if needsPread then
      Bytes.slice (fs.disk.bytes i) (cur * cfg.ioBlockSize) cfg.ioBlockSize else []) :
    (if needsPread then fs.disk.pread w.fdCaching (w.io.pread cur) cfg.ioBlockSize
        (cur * cfg.ioBlockSize : ℕ) else (0, [])) = ((pr.length : ℤ), pr) := by
  obtain ⟨fd, hfd, hino, hread⟩ := hw.caching ho
  rw [hpr]
  cases needsPread with
  | true => simp only [if_true, hfd, hp rfl, Disk.pread_full _ hread, hino]
  | false => rfl

/-- A block that is not resident is put when a page is free, and written through otherwise. -/
lemma Sound.putOrWrite_none (h : OnePage cfg) (hw : WriteOk w i) (hS : fs.Sound cfg)
    (hm : (fs.metaOf i).isSome) (hv : (fs.file cfg i).blocks (toInt cur) = none)
    (hpw : fs.free = 0 → w.io.pwrite cur = .full) (bp : BlockPut) {start : ℕ}
    (hstart : bp.offStart = start) (hfit : start + bp.len ≤ cfg.ioBlockSize)
    (hrs : bp.rsTo = start + bp.len - 1) {full : Bool} (hfull : full = true → fs.free = 0)
    (hno : cfg.applyLruEviction = true → fs.free ≠ 0) :
    ∃ fs', fs.putOrWrite cfg w cur bp full = some (fs', true) ∧ Changed cfg i fs fs' ∧
      fs'.file cfg i = (if fs.free ≠ 0 then (fs.file cfg i).setBlock (toInt cur)
          ((BlockView.zero cfg.ioBlockSize).overwrite start (bp.data.read 0 bp.len))
        else { fs.file cfg i with
          disk := Bytes.write (fs.disk.bytes i) (cur * cfg.ioBlockSize + start)
            (bp.data.read 0 bp.len) }) ∧
      fs'.free = fs.free - 1 := by
  by_cases hfr : fs.free = 0
  · -- no page is free: the block is written through, whether it was tried to put it or not
    obtain ⟨fs1, hput, hch, hfile, hfree⟩ : ∃ fs1,
        (if full then some (fs, false) else fs.putBlock cfg w.inode (toInt cur) bp)
          = some (fs1, false) ∧ Changed cfg i fs fs1 ∧ fs1.file cfg i = fs.file cfg i ∧
        fs1.free = 0 := by
      cases full with
      | true => exact ⟨fs, rfl, .refl hS, rfl, hfr⟩
      | false =>
          obtain ⟨fs1, stored, hput, hch, hfile, hst, hfree⟩ :=
            hS.putBlock h hm (toInt cur) bp hstart hfit hrs fun hl hnil => absurd hnil (hno hl)
          have hstored : stored = false := by
            rw [← Bool.not_eq_true, hst, hv]
            simp [hfr]
          rw [hstored] at hput hfile
          rw [hv, hfr] at hfree
          exact ⟨fs1, by rw [hw.inode]; simpa using hput, hch, hfile, hfree⟩
    have hdisk : fs1.disk.bytes i = fs.disk.bytes i := congrArg FileView.disk hfile
    obtain ⟨hch', hfile'⟩ := hch.sound.setBytes i
      (Bytes.write (fs1.disk.bytes i) (cur * cfg.ioBlockSize + start) (bp.data.read 0 bp.len))
    refine ⟨_, ?_, hch.trans hch', ?_, ?_⟩
    · rw [putOrWrite_eq, hput, Option.bind_some, if_neg (by simp),
        hw.writeThrough fs1 (hpw hfr) bp hstart]
    · rw [if_neg (not_not.mpr hfr), hfile', hfile, hdisk]
    · rw [hfr]
      exact hfree
  · have hnf : full = false := by
      rw [← Bool.not_eq_true]
      exact fun hf => hfr (hfull hf)
    obtain ⟨fs', stored, hput, hch, hfile, hst, hfree⟩ :=
      hS.putBlock h hm (toInt cur) bp hstart hfit hrs fun _ hnil => absurd hnil hfr
    have hstored : stored = true := hst.mpr (.inr hfr)
    rw [hstored] at hput hfile
    rw [if_pos rfl, hv, Option.getD_none] at hfile
    rw [hv] at hfree
    refine ⟨fs', ?_, hch, by rw [if_pos hfr, hfile], hfree⟩
    rw [putOrWrite_eq, hnf, if_neg (by simp), hw.inode, hput, Option.bind_some, if_pos rfl]

lemma Sound.isBlockCached_eq (hS : fs.Sound cfg) (i : ℕ) (b : ℤ) :
    fs.cache.isBlockCached cfg (inodeStr i) b = ((fs.file cfg i).blocks b).isSome := by
  obtain ⟨tbl, hG⟩ := hS.good
  exact hG.isBlockCached_eq _ _

/-- The block `bp` that is put for a block of which `pr` was found: stored over zeros it is `pr`
with the caller's bytes written into it, and written through it changes the caller's bytes. -/
structure PutsFound (cfg : Config) (bp : BlockPut) (start : ℕ) (disk pr sg : List UInt8)
    (cur off : ℕ) : Prop where
  offStart : bp.offStart = start
  fit : start + bp.len ≤ cfg.ioBlockSize
  rsTo : bp.rsTo = start + bp.len - 1
  stored : (BlockView.zero cfg.ioBlockSize).overwrite start (bp.data.read 0 bp.len)
    = (BlockView.zero cfg.ioBlockSize).overwrite 0 (Bytes.write pr off sg)
  through : Bytes.write disk (cur * cfg.ioBlockSize + start) (bp.data.read 0 bp.len)
    = Bytes.write disk (cur * cfg.ioBlockSize + off) sg

lemma cacheBuf_putsFound (w : WriteCtx) {needs : Bool} {disk pr sg : List UInt8} {off len : ℕ}
    {iter : ℤ} (hpr : pr = if needs then
      Bytes.slice disk (cur * cfg.ioBlockSize) cfg.ioBlockSize else [])
    (hsg : (w.buf.shift iter).read 0 len = sg) (hlen : 0 < len)
    (hfit : off + len ≤ cfg.ioBlockSize) :
    ∃ start, PutsFound cfg (cacheBuf cfg w needs (pr.length, pr) iter off (off + len - 1)) start
      disk pr sg cur off := by
  have hsglen : sg.length = len := by rw [← hsg, Mem.length_read]
  have hsgne : sg ≠ [] := by rw [← List.length_pos_iff, hsglen]; exact hlen
  by_cases hnil : pr = []
  · -- nothing was found: the caller's bytes are put where they belong
    have hto : ((off : ℤ) + len - 1 - off + 1).toNat = len := by omega
    rw [cacheBuf_direct w (.inr (by rw [hnil]; rfl)), hto]
    refine ⟨off, rfl, hfit, rfl, ?_, by rw [hsg]⟩
    rw [hsg, hnil, BlockView.overwrite_zero _ _ hsgne (by rw [hsglen]; exact hfit)]
  · -- the block is put from its start
    have hneeds : needs = true := by
      by_contra hcon
      exact hnil (by rw [hpr, if_neg hcon])
    rw [if_pos hneeds] at hpr
    have hprlen : pr.length ≤ cfg.ioBlockSize := by
      rw [hpr, Bytes.length_slice]
      exact min_le_left _ _
    rw [hneeds]
    obtain ⟨b1, b2, b3, b4⟩ := cacheBuf_merged w hnil hlen
      (rfl : _ = cacheBuf cfg w true ((pr.length : ℤ), pr) iter off (off + len - 1))
    rw [hsg] at b4
    refine ⟨0, b1, by rw [b2]; omega, by rw [b3]; push_cast; ring, by rw [b4], ?_⟩
    rw [b4, add_zero, hpr]
    exact Bytes.write_slice _ _ _ _ _ (by rw [← hpr]; exact hnil) hsgne
      (by rw [hsglen]; exact hfit)

/-- Whether a write looks for the old bytes of a block that is not resident. -/
def needsPread (cfg : Config) (w : WriteCtx) (cur : ℕ) : Bool :=
  decide (cur * cfg.ioBlockSize < w.fileSizeBefore) && !w.cacheFull

/-- The turn on a block that is not resident: what is found of it, and where it goes. -/
lemma Sound.putOrWrite_found (h : OnePage cfg) (hw : WriteOk w i) (hS : fs.Sound cfg)
    (hm : (fs.metaOf i).isSome) (hv : (fs.file cfg i).blocks (toInt cur) = none)
    (hfull : w.cacheFull = true → fs.free = 0)
    (hserved : FileView.Served cfg.ioBlockSize w.fileSizeBefore w.cacheFull w.io
      (fs.file cfg i, fs.free) cur)
    (hno : cfg.applyLruEviction = true → fs.free ≠ 0) {off len : ℕ} {iter : ℤ} {sg : List UInt8}
    (hsg : (w.buf.shift iter).read 0 len = sg) (hlen : 0 < len)
    (hfit : off + len ≤ cfg.ioBlockSize) :
    ∃ (pr : List UInt8) (fs' : FS), (if needsPread cfg w cur then
        fs.disk.pread w.fdCaching (w.io.pread cur) cfg.ioBlockSize (cur * cfg.ioBlockSize : ℕ)
        else (0, [])) = ((pr.length : ℤ), pr) ∧
      fs.putOrWrite cfg w cur (cacheBuf cfg w (needsPread cfg w cur) (pr.length, pr) iter off
        (off + len - 1)) w.cacheFull = some (fs', true) ∧
      Changed cfg i fs fs' ∧
      fs'.file cfg i = (fs.file cfg i).writeBlock cfg.ioBlockSize w.fileSizeBefore
        ((fs.file cfg i).finds fs.free cur) cur off sg ∧ fs'.free = fs.free - 1 := by
  obtain ⟨hopen, hread, hpw⟩ := hserved hv
  obtain ⟨pr, hpr⟩ : ∃ pr : List UInt8, pr = if needsPread cfg w cur then
    Bytes.slice (fs.disk.bytes i) (cur * cfg.ioBlockSize) cfg.ioBlockSize else [] := ⟨_, rfl⟩
  have hneeds : needsPread cfg w cur = true → w.io.pread cur = .full := fun hn => by
    rw [needsPread, Bool.and_eq_true, decide_eq_true_eq, Bool.not_eq_true'] at hn
    exact hread hn.1 hn.2
  obtain ⟨start, hput⟩ := cacheBuf_putsFound w hpr hsg hlen hfit
  obtain ⟨fs', hrun, hch, hfile, hfree⟩ :=
    hS.putOrWrite_none h hw hm hv hpw _ hput.offStart hput.fit hput.rsTo hfull hno
  refine ⟨pr, fs', hw.pread_eq fs _ hopen hneeds hpr, hrun, hch, ?_, hfree⟩
  rw [hfile, FileView.finds, hv, Option.isSome_none, Bool.false_or, hput.stored]
  by_cases hfr : fs.free = 0
  · rw [if_neg (not_not.mpr hfr), hfr, hput.through]
    exact (FileView.writeBlock_through hv).symm
  · -- with a page free the bytes were looked for, unless there are none
    have hnf : w.cacheFull = false := by
      rw [← Bool.not_eq_true]
      exact fun hf => hfr (hfull hf)
    have hfound : (fs.file cfg i).found cfg.ioBlockSize w.fileSizeBefore cur = pr := by
      rw [FileView.found, hpr, needsPread, hnf]
      simp only [Bool.not_false, Bool.and_true, decide_eq_true_eq]
      rfl
    have hfinds : decide (fs.free ≠ 0) = true := decide_eq_true hfr
    rw [if_pos hfr, hfinds, FileView.writeBlock_stored hv, hfound]

/-! ### The block loop -/

/-- **One turn of the block loop** of `lfs_write`. -/
theorem Sound.writeBlock (h : OnePage cfg) (hw : WriteOk w i) (hS : fs.Sound cfg)
    (hm : (fs.metaOf i).isSome)
    (hc : cur ∈ blocksOf cfg.ioBlockSize w.offset (w.offset + w.size))
    (hfull : w.cacheFull = true → fs.free = 0)
    (hserved : FileView.Served cfg.ioBlockSize w.fileSizeBefore w.cacheFull w.io
      (fs.file cfg i, fs.free) cur)
    (hno : cfg.applyLruEviction = true → fs.free = 0 →
      ((fs.file cfg i).blocks (toInt cur)).isSome) :
    ∃ fs', FS.writeBlock cfg w cur fs
        ((segFrom cfg.ioBlockSize w.offset cur - w.offset : ℕ) : ℤ)
          = some (fs', ((segTo cfg.ioBlockSize (w.offset + w.size) cur - w.offset : ℕ) : ℤ), true) ∧
      Changed cfg i fs fs' ∧
      (fs'.file cfg i, fs'.free) = FileView.turn cfg.ioBlockSize w.fileSizeBefore w.offset
        (w.buf.read 0 w.size) (fs.file cfg i, fs.free) cur := by
  have hB := h.pos
  have hsz := hw.size_pos
  obtain ⟨hc1, hc2⟩ := (mem_blocksOf hB (by omega)).mp hc
  have hpq := segFrom_lt_segTo (B := cfg.ioBlockSize) (by omega) hc1 hc2 hB
  have hsg := seg_read cfg w.buf hsz hB hc
  have hq : segTo cfg.ioBlockSize (w.offset + w.size) cur ≤ (cur + 1) * cfg.ioBlockSize :=
    min_le_right _ _
  have hp : cur * cfg.ioBlockSize ≤ segFrom cfg.ioBlockSize w.offset cur := le_max_right _ _
  have ho : w.offset ≤ segFrom cfg.ioBlockSize w.offset cur := le_max_left _ _
  rw [Nat.add_mul, one_mul] at hq
  -- the write reaches the bytes from `p` to `q` of the file
  set p := segFrom cfg.ioBlockSize w.offset cur with hpdef
  set q := segTo cfg.ioBlockSize (w.offset + w.size) cur with hqdef
  have hfrom : blkReadableFrom cfg w.offset cur = ((p - cur * cfg.ioBlockSize : ℕ) : ℤ) :=
    blkReadableFrom_eq hB hc
  have hto : ∀ k, blkReadableTo cfg w.size w.offset cur k
      = ((p - cur * cfg.ioBlockSize : ℕ) : ℤ) + ((q - p : ℕ) : ℤ) - 1 := fun k => by
    rw [blkReadableTo_eq hB hsz hw.no_wrap hc k]
    omega
  have hlen : (((p - cur * cfg.ioBlockSize : ℕ) : ℤ) + ((q - p : ℕ) : ℤ) - 1
      - ((p - cur * cfg.ioBlockSize : ℕ) : ℤ) + 1).toNat = q - p := by omega
  have hacc : ((p - w.offset : ℕ) : ℤ) + (((p - cur * cfg.ioBlockSize : ℕ) : ℤ)
      + ((q - p : ℕ) : ℤ) - 1 - ((p - cur * cfg.ioBlockSize : ℕ) : ℤ) + 1)
      = ((q - w.offset : ℕ) : ℤ) := by omega
  have hfit : p - cur * cfg.ioBlockSize + (q - p) ≤ cfg.ioBlockSize := by omega
  rw [FS.writeBlock]
  simp only [hw.inode, hS.isBlockCached_eq, hfrom, hto, hlen, hacc]
  rw [FileView.turn]
  dsimp only
  cases hv : (fs.file cfg i).blocks (toInt cur) with
  | some v =>
      rw [Option.isSome_some, if_pos rfl]
      obtain ⟨fs', hput, hch, hfile, hfree⟩ := hS.putOrWrite_some h hw hm hv
        ⟨w.buf.shift ((p - w.offset : ℕ) : ℤ), q - p, (p - cur * cfg.ioBlockSize : ℕ),
          ((p - cur * cfg.ioBlockSize : ℕ) : ℤ) + ((q - p : ℕ) : ℤ) - 1⟩ rfl hfit rfl
      refine ⟨fs', by rw [hput]; rfl, hch, ?_⟩
      rw [hfile, hfree, FileView.writeBlock_some hv, ← hsg]
      rfl
  | none =>
      have hfree_ne : cfg.applyLruEviction = true → fs.free ≠ 0 := fun hl hnil => by
        have := hno hl hnil
        rw [hv] at this
        cases this
      obtain ⟨fd, hfd, -, -⟩ := hw.caching (hserved hv).1
      -- the block is read from the backing file where it may have bytes
      obtain ⟨pr, fs', hpread, hput, hch, hfile, hfree⟩ :=
        hS.putOrWrite_found h hw hm hv hfull hserved hfree_ne hsg (by omega) hfit
      rw [needsPread] at hpread hput
      rw [Option.isSome_none, if_neg Bool.false_ne_true, if_pos (by rw [hfd]; rfl), hpread,
        if_neg (by dsimp only; omega)]
      refine ⟨fs', by rw [hput]; rfl, hch, ?_⟩
      rw [hfile, hfree]
      rfl

/-- The next block of a request starts where the last one ended. -/
lemma segFrom_succ {B offset stop n : ℕ} (ho : offset < (n + 1) * B) (hn : (n + 1) * B < stop) :
    segFrom B offset (n + 1) = segTo B stop n := by
  rw [segFrom, segTo]
  omega

/-- **The block loop** of `lfs_write`. -/
theorem Sound.writeLoop (h : OnePage cfg) (hw : WriteOk w i) (k : ℕ) :
    ∀ (n : ℕ) (fs : FS), fs.Sound cfg → (fs.metaOf i).isSome →
      (∀ m ∈ List.range' n k, m ∈ blocksOf cfg.ioBlockSize w.offset (w.offset + w.size)) →
      (w.cacheFull = true → fs.free = 0) →
      FileView.ServedAll cfg.ioBlockSize w.fileSizeBefore w.cacheFull w.io w.offset
        (w.buf.read 0 w.size)
        (List.range' n k) (fs.file cfg i, fs.free) →
      (cfg.applyLruEviction = true → ∃ S : Finset ℤ, (∀ m ∈ List.range' n k, toInt m ∈ S) ∧
        (fs.file cfg i).missing S ≤ fs.free) →
      ∃ fs', FS.writeLoop cfg w (List.range' n k) fs
          ((segFrom cfg.ioBlockSize w.offset n - w.offset : ℕ) : ℤ) = some fs' ∧
        Changed cfg i fs fs' ∧
        (fs'.file cfg i, fs'.free) = FileView.turns cfg.ioBlockSize w.fileSizeBefore w.offset
          (w.buf.read 0 w.size) (List.range' n k) (fs.file cfg i, fs.free) := by
  have hsz := hw.size_pos
  induction k with
  | zero => exact fun n fs hS hm _ _ _ _ => ⟨fs, rfl, .refl hS, rfl⟩
  | succ k ih =>
      intro n fs hS hm hl hfull hserved hno
      rw [List.range'_succ] at hl hserved hno ⊢
      obtain ⟨hserved1, hserved2⟩ := hserved
      have hn := hl n List.mem_cons_self
      -- the first block
      obtain ⟨fs1, hblock, hch, hturn⟩ :=
          hS.writeBlock h hw hm hn hfull hserved1 (fun hlru hnil => by
        obtain ⟨S, hSl, hSm⟩ := hno hlru
        have hfinds := (FileView.missing_turn cfg.ioBlockSize w.fileSizeBefore w.offset
          (w.buf.read 0 w.size) (s := (fs.file cfg i, fs.free)) (hSl n List.mem_cons_self) hSm).1
        rw [FileView.finds, hnil] at hfinds
        simpa using hfinds)
      have hle : fs1.free ≤ fs.free := by
        have h1 := congrArg Prod.snd hturn
        dsimp only at h1
        rw [h1]
        exact FileView.free_turn_le _ _
      have hm1 : (fs1.metaOf i).isSome := by rw [hch.metaOf]; exact hm
      -- the turns after this one
      obtain ⟨fs', hloop, hch', hturns⟩ : ∃ fs', FS.writeLoop cfg w (List.range' (n + 1) k) fs1
            ((segTo cfg.ioBlockSize (w.offset + w.size) n - w.offset : ℕ) : ℤ) = some fs' ∧
          Changed cfg i fs1 fs' ∧
          (fs'.file cfg i, fs'.free) = FileView.turns cfg.ioBlockSize w.fileSizeBefore w.offset
            (w.buf.read 0 w.size) (List.range' (n + 1) k) (fs1.file cfg i, fs1.free) := by
        cases k with
        | zero => exact ⟨fs1, rfl, .refl hch.sound, rfl⟩
        | succ k =>
            have hn1 := hl (n + 1) (by simp)
            obtain ⟨g1, -⟩ := (mem_blocksOf h.pos (by omega)).mp hn1
            obtain ⟨-, g2⟩ := (mem_blocksOf h.pos (by omega)).mp hn
            rw [← segFrom_succ g2 g1]
            refine ih (n + 1) fs1 hch.sound hm1 (fun m hm => hl m (List.mem_cons_of_mem _ hm))
              (fun hf => ?_) ?_ fun hlru => ?_
            · have hnil := hfull hf
              omega
            · rw [hturn]
              exact hserved2
            · obtain ⟨S, hSl, hSm⟩ := hno hlru
              have hbal := (FileView.missing_turn cfg.ioBlockSize w.fileSizeBefore w.offset
                (w.buf.read 0 w.size) (s := (fs.file cfg i, fs.free)) (hSl n List.mem_cons_self)
                hSm).2
              refine ⟨S, fun m hm => hSl m (List.mem_cons_of_mem _ hm), ?_⟩
              have h1 := congrArg Prod.fst hturn
              have h2 := congrArg Prod.snd hturn
              dsimp only at h1 h2 hbal
              rw [h1, h2]
              omega
      refine ⟨fs', ?_, hch.trans hch', ?_⟩
      · rw [FS.writeLoop, hblock]
        exact hloop
      · rw [hturns, hturn]
        rfl

end FS

end LazyFS
