import LazyFS.File.Write

/-!
`lfs_write` as a whole.

* `FS.sizeOf`: the size of a file, cached or in the backing file system.
* `FS.Touched`: what an operation on a path of the file `i` leaves alone.
* `Sound.lfsWriteNull`, `Sound.lfsWrite`: a write is `FileView.writeAll` or, with the hole before
  it, `FileView.writeAt` on the view of the file.
-/

namespace LazyFS

open Engine

variable {cfg : Config}

/-- The calls of a write succeed in full. -/
structure WriteIo.Ok (io : WriteIo) : Prop where
  openRdonly : io.openRdonly = true
  pread : ∀ n, io.pread n = .full
  pwrite : ∀ n, io.pwrite n = .full

/-- `get_cache_usage () == 100` with eviction off, for a number of free pages. -/
def poolFull (cfg : Config) (free : ℕ) : Bool :=
  decide ((((cfg.cacheNrPages : ℤ) - free : ℤ) : ℚ) / cfg.cacheNrPages * 100 = 100)
    && !cfg.applyLruEviction

/-- The backing calls that a write makes succeed in full. -/
def FileView.WriteServed (cfg : Config) (known offset : ℕ) (src : List UInt8) (io : WriteIo)
    (s : FileView × ℕ) : Prop :=
  ServedAll cfg.ioBlockSize known (poolFull cfg s.2) io offset src
    (blocksOf cfg.ioBlockSize offset (offset + src.length)) s

/-- The same for the write that fills the hole before an offset. -/
def FileView.FillServed (cfg : Config) (size offset : ℕ) (io : WriteIo) (s : FileView × ℕ) : Prop :=
  size < offset → WriteServed cfg size size (List.replicate (offset - size) 0) io s

lemma WriteIo.Ok.served {io : WriteIo} (hio : io.Ok) (known offset : ℕ) (src : List UInt8)
    (s : FileView × ℕ) : FileView.WriteServed cfg known offset src io s :=
  FileView.servedAll_of_full hio.openRdonly hio.pread hio.pwrite _ s

namespace FS

variable {fs fs' fs'' : FS} {i n n' : ℕ} {path : Path}

/-- The size of the file `i`: the cached one, or the length in the backing file system. -/
def sizeOf (fs : FS) (i : ℕ) : ℕ := ((fs.metaOf i).map Metadata.size).getD (fs.disk.bytes i).length

/-- After an operation on a path of the file `i` that leaves it with the size `n`. -/
structure Touched (cfg : Config) (path : Path) (i n : ℕ) (fs fs' : FS) : Prop where
  sound : fs'.Sound cfg
  names : Disk.SameNames fs.disk fs'.disk
  mapping : ∀ p, fs'.cache.fileInodeMapping.lookup p
    = if p = path then some (inodeStr i) else fs.cache.fileInodeMapping.lookup p
  size : (fs'.metaOf i).map Metadata.size = some n
  metaOf : ∀ j, j ≠ i → fs'.metaOf j = fs.metaOf j
  file : ∀ j, j ≠ i → fs'.file cfg j = fs.file cfg j

namespace Touched

lemma exists_meta (h : Touched cfg path i n fs fs') : ∃ m, fs'.metaOf i = some m ∧ m.size = n :=
  Option.map_eq_some_iff.mp h.size

lemma isSome (h : Touched cfg path i n fs fs') : (fs'.metaOf i).isSome := by
  obtain ⟨m, hm, -⟩ := h.exists_meta
  rw [hm]
  rfl

lemma sizeOf (h : Touched cfg path i n fs fs') : fs'.sizeOf i = n := by
  rw [FS.sizeOf, h.size, Option.getD_some]

lemma trans (h : Touched cfg path i n fs fs') (h' : Touched cfg path i n' fs' fs'') :
    Touched cfg path i n' fs fs'' where
  sound := h'.sound
  names := h.names.trans h'.names
  mapping := fun p => by
    rw [h'.mapping, h.mapping]
    split_ifs <;> rfl
  size := h'.size
  metaOf := fun j hj => (h'.metaOf j hj).trans (h.metaOf j hj)
  file := fun j hj => (h'.file j hj).trans (h.file j hj)

lemma changed (h : Touched cfg path i n fs fs') (h' : Changed cfg i fs' fs'') :
    Touched cfg path i n fs fs'' where
  sound := h'.sound
  names := h.names.trans h'.names
  mapping := fun p => by rw [h'.mapping, h.mapping]
  size := by rw [h'.metaOf, h.size]
  metaOf := fun j hj => (h'.metaOf j).trans (h.metaOf j hj)
  file := fun j hj => (h'.file j hj).trans (h.file j hj)

end Touched

/-- The size that `lfs_getattr` leaves in the cache. -/
lemma Opened.size (h : Opened cfg path i fs fs') : (fs'.metaOf i).map Metadata.size
    = some (fs.sizeOf i) := by
  rw [h.metaOf, if_pos rfl, FS.sizeOf, Option.map_some]
  cases fs.metaOf i <;> rfl

lemma Opened.touched (h : Opened cfg path i fs fs') : Touched cfg path i (fs.sizeOf i) fs fs' where
  sound := h.sound
  names := by rw [h.disk]; exact .refl _
  mapping := h.mapping
  size := h.size
  metaOf := fun j hj => by rw [h.metaOf, if_neg hj]
  file := fun j _ => h.file j

lemma Opened.view_eq (h : Opened cfg path i fs fs') :
    (fs'.file cfg i, fs'.free) = (fs.file cfg i, fs.free) := by
  rw [h.file, FS.free, FS.free, h.freePages]

lemma Opened.sizeOf (h : Opened cfg path i fs fs') : fs'.sizeOf i = fs.sizeOf i := h.touched.sizeOf

/-- Other metadata of a file that is cached. -/
lemma Sound.updateMeta (hS : fs.Sound cfg) (m : Metadata) (values : List MetaField) :
    (fs.updateMeta (inodeStr i) m values).Sound cfg := by
  obtain ⟨tbl, hG⟩ := hS.good
  refine hS.setCache (hG.updateContentMetadata _ _ _) (fun p s hs => .inl ?_) fun s hs => ?_
  · rwa [Cache.fileInodeMapping_updateContentMetadata] at hs
  · by_cases hsi : s = inodeStr i
    · exact .inr ⟨i, hsi⟩
    · rw [Cache.getContentMetadata_updateContentMetadata, if_neg hsi] at hs
      exact .inl hs

lemma file_updateMeta (m : Metadata) (values : List MetaField) (j : ℕ) :
    (fs.updateMeta (inodeStr i) m values).file cfg j = fs.file cfg j := by
  rw [FS.file, FS.file]
  simp only [FS.updateMeta, FS.setCache, Cache.view_updateContentMetadata]

lemma free_updateMeta (m : Metadata) (values : List MetaField) :
    (fs.updateMeta (inodeStr i) m values).free = fs.free := by
  rw [FS.free, FS.free]
  simp only [FS.updateMeta, FS.setCache, Cache.engine_updateContentMetadata]

lemma metaOf_updateMeta (m : Metadata) (values : List MetaField) (j : ℕ) :
    (fs.updateMeta (inodeStr i) m values).metaOf j
      = if j = i then (fs.metaOf i).map fun m' => values.foldl (Item.updateField m) m'
        else fs.metaOf j := by
  rw [FS.metaOf, FS.updateMeta]
  dsimp only [FS.setCache]
  rw [Cache.getContentMetadata_updateContentMetadata]
  by_cases hj : j = i
  · rw [if_pos (by rw [hj]), if_pos hj]
    rfl
  · rw [if_neg fun heq => hj (inodeStr_injective heq), if_neg hj]
    rfl

/-- The metadata update of a write or a truncation. -/
lemma Touched.updateMeta (h : Touched cfg path i n fs fs') (m : Metadata) {values : List MetaField}
    (hv : values = [.size, .mtime, .ctime] ∨ values = [.size, .mtime]) :
    Touched cfg path i m.size fs (fs'.updateMeta (inodeStr i) m values) where
  sound := h.sound.updateMeta m values
  names := h.names
  mapping := fun p => by
    rw [← h.mapping, FS.updateMeta]
    dsimp only [FS.setCache]
    rw [Cache.fileInodeMapping_updateContentMetadata]
  size := by
    obtain ⟨m', hm', -⟩ := h.exists_meta
    rw [metaOf_updateMeta, if_pos rfl, hm']
    rcases hv with rfl | rfl <;> rfl
  metaOf := fun j hj => by rw [metaOf_updateMeta, if_neg hj, h.metaOf j hj]
  file := fun j hj => by rw [file_updateMeta, h.file j hj]

lemma cacheFull_eq (fs : FS) : fs.cacheFull cfg = poolFull cfg fs.free := rfl

/-- A full cache has no free page. -/
lemma Sound.free_of_cacheFull (hS : fs.Sound cfg) (hf : fs.cacheFull cfg = true) : fs.free = 0 := by
  obtain ⟨tbl, hG⟩ := hS.good
  rw [FS.cacheFull, Bool.and_eq_true, decide_eq_true_eq, Cache.getCacheUsage,
    Engine.getEngineUsage] at hf
  obtain ⟨hf, -⟩ := hf
  have hN : (cfg.cacheNrPages : ℚ) ≠ 0 := by
    intro h0
    rw [h0, div_zero, zero_mul] at hf
    norm_num at hf
  have h1 : (((cfg.cacheNrPages : ℤ) - fs.cache.engine.freePages.length : ℤ) : ℚ)
      = cfg.cacheNrPages := by
    field_simp at hf
    linarith
  push_cast at h1
  have h2 : ((fs.cache.engine.freePages.length : ℕ) : ℚ) = 0 := by linarith
  rw [FS.free]
  exact_mod_cast h2

/-- The result of `lfs_write`. -/
def writeResult (cfg : Config) (size : ℕ) : ℤ := if toInt size = -1 then -cfg.errno else toInt size

lemma writeResult_of_lt {size : ℕ} (h : size < 2 ^ 31) : writeResult cfg size = size := by
  rw [writeResult, toInt_of_lt h, if_neg (by omega)]

/-- The pages that a write needs are free, when eviction is on. -/
def EnoughIfLru (cfg : Config) (s : FileView × ℕ) (offset stop : ℕ) : Prop :=
  cfg.applyLruEviction = true → ∃ S : Finset ℤ,
    (∀ n ∈ blocksOf cfg.ioBlockSize offset stop, toInt n ∈ S) ∧ s.1.missing S ≤ s.2

/-- `lfs_write` on an open descriptor, whatever fills the hole. -/
theorem Sound.writeOn_served (h : OnePage cfg) (hS : fs.Sound cfg) (hi : fs.disk.ino path = some i)
    (fill : ℕ → FS → Option FS) (fillView : FileView × ℕ → FileView × ℕ) {n : ℕ}
    (hfill : ∀ fs1, Opened cfg path i fs fs1 → ∃ fs2, fill (fs.sizeOf i) fs1 = some fs2 ∧
      Touched cfg path i n fs1 fs2 ∧
      (fs2.file cfg i, fs2.free) = fillView (fs1.file cfg i, fs1.free))
    (buf : Mem) {size offset : ℕ} (hs : 0 < size) (hw : offset + size ≤ 2 ^ 64) {fd : Fd}
    (hfd : fd.ino = i ∧ fd.writable = true) {io : WriteIo}
    (hio : FileView.WriteServed cfg (fs.sizeOf i) offset (buf.read 0 size) io
      (fillView (fs.file cfg i, fs.free)))
    (hno : EnoughIfLru cfg (fillView (fs.file cfg i, fs.free)) offset (offset + size)) :
    ∃ fs', fs.writeOn cfg fill path buf size offset fd false io
        = some (fs', writeResult cfg size) ∧
      Touched cfg path i (max (offset + size) (fs.sizeOf i)) fs fs' ∧
      (fs'.file cfg i, fs'.free) = FileView.writeAll cfg.ioBlockSize (fs.sizeOf i) offset
        (buf.read 0 size) (fillView (fs.file cfg i, fs.free)) := by
  -- the file is opened by `lfs_getattr`, and the gap is filled
  obtain ⟨fs1, st, hget, hopen, -⟩ := hS.lfsGetattr hi
  obtain ⟨fs2, hf, ht, hview⟩ := hfill fs1 hopen
  have ht2 := hopen.touched.trans ht
  have hpair := hopen.view_eq
  obtain ⟨m, hm, hmsize⟩ := hopen.touched.exists_meta
  have hm' : fs1.cache.getContentMetadata (inodeStr i) = some m := hm
  have hi2 : fs2.disk.ino path = some i := by rw [ht2.names.ino]; exact hi
  -- the loop over the blocks, in the state that the fill leaves
  set w : WriteCtx :=
    { inode := inodeStr i, fd := fd,
      fdCaching := if io.openRdonly then fs2.disk.openRead path else none,
      cacheFull := fs2.cacheFull cfg, fileSizeBefore := fs.sizeOf i, buf := buf, size := size,
      offset := offset, io := io } with hwdef
  have hwok : WriteOk w i :=
    { inode := rfl
      fd := hfd
      caching := fun ho => ⟨⟨i, true, false⟩, by
        rw [hwdef] at ho ⊢
        dsimp only at ho ⊢
        rw [ho, if_pos rfl, Disk.openRead, hi2, Option.map_some], rfl, rfl⟩
      size_pos := hs
      no_wrap := hw }
  -- it starts with the block of the first byte and ends with that of the last
  have hdiv : offset / cfg.ioBlockSize * cfg.ioBlockSize ≤ offset := Nat.div_mul_le_self _ _
  have hstart : ((segFrom cfg.ioBlockSize w.offset (offset / cfg.ioBlockSize) - w.offset : ℕ) : ℤ)
      = 0 := by
    rw [segFrom, hwdef]
    dsimp only
    omega
  have hlist : List.range' (offset / cfg.ioBlockSize)
        ((offset + size - 1) / cfg.ioBlockSize + 1 - offset / cfg.ioBlockSize)
      = blocksOf cfg.ioBlockSize offset (offset + (buf.read 0 size).length) := by
    rw [Mem.length_read, blocksOf]
  have hserved : FileView.ServedAll cfg.ioBlockSize w.fileSizeBefore w.cacheFull w.io w.offset
      (w.buf.read 0 w.size) (List.range' (offset / cfg.ioBlockSize)
        ((offset + size - 1) / cfg.ioBlockSize + 1 - offset / cfg.ioBlockSize))
      (fs2.file cfg i, fs2.free) := by
    have hfree : fs2.free = (fillView (fs.file cfg i, fs.free)).2 := by
      rw [← hpair, ← hview]
    rw [hlist, hview, hpair, hwdef]
    dsimp only
    rw [cacheFull_eq, hfree]
    exact hio
  obtain ⟨fs3, hloop, hch, hturns⟩ := Sound.writeLoop h hwok
    ((offset + size - 1) / cfg.ioBlockSize + 1 - offset / cfg.ioBlockSize)
    (offset / cfg.ioBlockSize) fs2 ht2.sound ht2.isSome (fun m hm => hm)
    ht2.sound.free_of_cacheFull hserved (fun hl => by
      obtain ⟨S, hS1, hS2⟩ := hno hl
      rw [← hpair, ← hview] at hS2
      exact ⟨S, hS1, hS2⟩)
  rw [hstart] at hloop
  have hrange : blkRange cfg size offset = List.range' (offset / cfg.ioBlockSize)
      ((offset + size - 1) / cfg.ioBlockSize + 1 - offset / cfg.ioBlockSize) := blkRange_eq hs hw
  have ht3 := ht2.changed hch
  -- the size and the times are written last
  refine ⟨fs3.writeMeta w, ?_, ?_, ?_⟩
  · rw [FS.writeOn]
    simp only [hget, Option.bind_eq_bind, Option.bind_some, Bool.false_eq_true, if_false,
      hopen.inode, hm', hmsize, hf, hrange]
    rw [← hwdef, hloop]
    rfl
  · refine ht3.updateMeta { Metadata.new with
      size := max (offset + size) (fs.sizeOf i)
      mtim := io.now
      ctim := io.now } ?_
    split_ifs
    · exact .inl rfl
    · exact .inr rfl
  · have hfile : (fs3.writeMeta w).file cfg i = fs3.file cfg i := file_updateMeta _ _ _
    have hfree : (fs3.writeMeta w).free = fs3.free := free_updateMeta _ _
    rw [hfile, hfree, hturns, hview, hpair, FileView.writeAll, Mem.length_read]
    rfl

/-- The path is looked up already. -/
lemma Opened.touched_self (h : Opened cfg path i fs fs') :
    Touched cfg path i (fs.sizeOf i) fs' fs' where
  sound := h.sound
  names := .refl _
  mapping := fun p => by
    split_ifs with hp
    · rw [h.mapping, if_pos hp]
    · rfl
  size := h.size
  metaOf := fun _ _ => rfl
  file := fun _ _ => rfl

/-- `lfs_write` with a null handle fills no hole. -/
theorem Sound.lfsWriteNull_served (h : OnePage cfg) (hS : fs.Sound cfg)
    (hi : fs.disk.ino path = some i) (buf : Mem) {size offset : ℕ} (hs : 0 < size)
    (hw : offset + size ≤ 2 ^ 64) {io : WriteIo}
    (hio : FileView.WriteServed cfg (fs.sizeOf i) offset (buf.read 0 size)
      io (fs.file cfg i, fs.free))
    (hno : EnoughIfLru cfg (fs.file cfg i, fs.free) offset (offset + size)) :
    ∃ fs', fs.lfsWriteNull cfg path buf size offset io = some (fs', writeResult cfg size) ∧
      Touched cfg path i (max (offset + size) (fs.sizeOf i)) fs fs' ∧
      (fs'.file cfg i, fs'.free) = FileView.writeAll cfg.ioBlockSize (fs.sizeOf i) offset
        (buf.read 0 size) (fs.file cfg i, fs.free) := by
  have hfill : ∀ fs1, Opened cfg path i fs fs1 → ∃ fs2, (fun _ fs => some fs) (fs.sizeOf i) fs1
      = some fs2 ∧ Touched cfg path i (fs.sizeOf i) fs1 fs2 ∧
      (fs2.file cfg i, fs2.free) = id (fs1.file cfg i, fs1.free) :=
    fun fs1 hopen => ⟨fs1, rfl, hopen.touched_self, rfl⟩
  have hfd : (⟨i, false, true⟩ : Fd).ino = i ∧ (⟨i, false, true⟩ : Fd).writable = true := ⟨rfl, rfl⟩
  obtain ⟨fs', h1, h2, h3⟩ := hS.writeOn_served h hi (fun _ fs => some fs) id hfill buf hs hw hfd
    hio hno
  refine ⟨fs', ?_, h2, h3⟩
  rw [FS.lfsWriteNull, Disk.openWrite, hi, Option.map_some]
  exact h1

/-- `lfs_write` with a null handle, when all calls succeed. -/
lemma Sound.lfsWriteNull (h : OnePage cfg) (hS : fs.Sound cfg) (hi : fs.disk.ino path = some i)
    (buf : Mem) {size offset : ℕ} (hs : 0 < size) (hw : offset + size ≤ 2 ^ 64) {io : WriteIo}
    (hio : io.Ok) (hno : EnoughIfLru cfg (fs.file cfg i, fs.free) offset (offset + size)) :
    ∃ fs', fs.lfsWriteNull cfg path buf size offset io = some (fs', writeResult cfg size) ∧
      Touched cfg path i (max (offset + size) (fs.sizeOf i)) fs fs' ∧
      (fs'.file cfg i, fs'.free) = FileView.writeAll cfg.ioBlockSize (fs.sizeOf i) offset
        (buf.read 0 size) (fs.file cfg i, fs.free) :=
  hS.lfsWriteNull_served h hi buf hs hw (hio.served _ _ _ _) hno

/-- **`lfs_write`** on a handle of the file, when the backing calls that it makes succeed. -/
theorem Sound.lfsWrite_served (h : OnePage cfg) (hS : fs.Sound cfg) (hi : fs.disk.ino path = some i)
    (buf : Mem) {size offset : ℕ} (hs : 0 < size) (hw : offset + size ≤ 2 ^ 64) {fi : FileInfo}
    (hfi : fi.fh.ino = i ∧ fi.fh.writable = true ∧ fi.directIo = false) {io fillIo : WriteIo}
    (hfillIo : FileView.FillServed cfg (fs.sizeOf i) offset fillIo (fs.file cfg i, fs.free))
    (hio : FileView.WriteServed cfg (fs.sizeOf i) offset (buf.read 0 size) io
      (FileView.fillTo cfg.ioBlockSize (fs.sizeOf i) offset (fs.file cfg i, fs.free)))
    (hno : EnoughIfLru cfg (fs.file cfg i, fs.free) (min (fs.sizeOf i) offset) (offset + size)) :
    ∃ fs', fs.lfsWrite cfg path buf size offset (some fi) io fillIo
        = some (fs', writeResult cfg size) ∧
      Touched cfg path i (max (offset + size) (fs.sizeOf i)) fs fs' ∧
      (fs'.file cfg i, fs'.free) = FileView.writeAt cfg.ioBlockSize (fs.sizeOf i) offset
        (buf.read 0 size) (fs.file cfg i, fs.free) := by
  have hB := h.pos
  have hzero : ∀ k : ℕ, Mem.read (fun _ => 0) 0 k = List.replicate k 0 := fun k => by
    refine List.ext_getElem? fun j => ?_
    by_cases hj : j < k
    · rw [Mem.getElem?_read _ _ hj, List.getElem?_replicate, if_pos hj]
    · rw [List.getElem?_eq_none (by simpa using hj), List.getElem?_eq_none (by simpa using hj)]
  have hlen : ∀ hhole : fs.sizeOf i < offset, fs.sizeOf i + (offset - fs.sizeOf i) = offset := by
    omega
  -- the blocks of the hole and those of the write are among the blocks from the end on
  have hsub : ∀ {S : Finset ℤ}, (∀ n ∈ blocksOf cfg.ioBlockSize (min (fs.sizeOf i) offset)
      (offset + size), toInt n ∈ S) →
      (fs.sizeOf i < offset → ∀ n ∈ blocksOf cfg.ioBlockSize (fs.sizeOf i) offset, toInt n ∈ S) ∧
      ∀ n ∈ blocksOf cfg.ioBlockSize offset (offset + size), toInt n ∈ S := by
    intro S hSS
    refine ⟨fun hhole n hn => ?_, fun n hn => ?_⟩
    · obtain ⟨g1, g2⟩ := (mem_blocksOf hB hhole).mp hn
      exact hSS n ((mem_blocksOf hB (by omega)).mpr ⟨by omega, by omega⟩)
    · obtain ⟨g1, g2⟩ := (mem_blocksOf hB (by omega)).mp hn
      exact hSS n ((mem_blocksOf hB (by omega)).mpr ⟨g1, by omega⟩)
  -- the hole is filled first
  have hfill : ∀ fs1, Opened cfg path i fs fs1 →
      ∃ fs2, fillHole cfg path offset fillIo (fs.sizeOf i) fs1 = some fs2 ∧
        Touched cfg path i (max offset (fs.sizeOf i)) fs1 fs2 ∧
        (fs2.file cfg i, fs2.free) = FileView.fillTo cfg.ioBlockSize (fs.sizeOf i) offset
          (fs1.file cfg i, fs1.free) := by
    intro fs1 hopen
    rw [fillHole, FileView.fillTo]
    split_ifs with hhole
    · have hi1 : fs1.disk.ino path = some i := by rw [hopen.disk]; exact hi
      have hserved : FileView.WriteServed cfg (fs1.sizeOf i) (fs.sizeOf i)
          (Mem.read (fun _ => 0) 0 (offset - fs.sizeOf i)) fillIo (fs1.file cfg i, fs1.free) := by
        rw [hopen.sizeOf, hzero, hopen.view_eq]
        exact hfillIo hhole
      obtain ⟨fs2, h1, h2, h3⟩ := hopen.sound.lfsWriteNull_served h hi1 (fun _ => 0)
        (show 0 < offset - fs.sizeOf i by omega)
        (show fs.sizeOf i + (offset - fs.sizeOf i) ≤ 2 ^ 64 by omega) hserved (fun hl => by
          obtain ⟨S, hS1, hS2⟩ := hno hl
          rw [hlen hhole, hopen.view_eq]
          exact ⟨S, (hsub hS1).1 hhole, hS2⟩)
      rw [hlen hhole, hopen.sizeOf] at h2
      rw [hopen.sizeOf, hzero] at h3
      exact ⟨fs2, by rw [h1]; rfl, h2, h3⟩
    · rw [max_eq_right (by omega)]
      exact ⟨fs1, rfl, hopen.touched_self, rfl⟩
  obtain ⟨fs', h1, h2, h3⟩ :=
    hS.writeOn_served h hi (fillHole cfg path offset fillIo) (FileView.fillTo cfg.ioBlockSize
    (fs.sizeOf i) offset) hfill buf hs hw ⟨hfi.1, hfi.2.1⟩ hio (fun hl => by
    obtain ⟨S, hS1, hS2⟩ := hno hl
    refine ⟨S, (hsub hS1).2, ?_⟩
    rw [FileView.fillTo]
    split_ifs with hhole
    · have hin : ∀ n ∈ blocksOf cfg.ioBlockSize (fs.sizeOf i) (fs.sizeOf i
          + (List.replicate (offset - fs.sizeOf i) (0 : UInt8)).length), toInt n ∈ S := by
        rw [List.length_replicate, hlen hhole]
        exact (hsub hS1).1 hhole
      have hbal := (FileView.writeAll_enough (fs.sizeOf i) hin hS2).2
      omega
    · exact hS2)
  refine ⟨fs', ?_, h2, h3⟩
  rw [FS.lfsWrite, hfi.2.2]
  exact h1

/-- **`lfs_write`** on a handle of the file, when all calls succeed. -/
theorem Sound.lfsWrite (h : OnePage cfg) (hS : fs.Sound cfg) (hi : fs.disk.ino path = some i)
    (buf : Mem) {size offset : ℕ} (hs : 0 < size) (hw : offset + size ≤ 2 ^ 64) {fi : FileInfo}
    (hfi : fi.fh.ino = i ∧ fi.fh.writable = true ∧ fi.directIo = false) {io fillIo : WriteIo}
    (hio : io.Ok) (hfillIo : fillIo.Ok)
    (hno : EnoughIfLru cfg (fs.file cfg i, fs.free) (min (fs.sizeOf i) offset) (offset + size)) :
    ∃ fs', fs.lfsWrite cfg path buf size offset (some fi) io fillIo
        = some (fs', writeResult cfg size) ∧
      Touched cfg path i (max (offset + size) (fs.sizeOf i)) fs fs' ∧
      (fs'.file cfg i, fs'.free) = FileView.writeAt cfg.ioBlockSize (fs.sizeOf i) offset
        (buf.read 0 size) (fs.file cfg i, fs.free) :=
  hS.lfsWrite_served h hi buf hs hw hfi (fun _ => hfillIo.served _ _ _ _) (hio.served _ _ _ _) hno

end FS

end LazyFS
