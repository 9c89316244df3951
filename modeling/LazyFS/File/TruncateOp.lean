import LazyFS.File.WriteOp

/-!
`lfs_truncate` on the view of a file.

* `TruncateHandle`: the handles that a truncation is called with.
* `Sound.lfsTruncate`: growing fills with zeros, and shrinking changes the size and nothing else:
  the item to cut is named by the path, and no item has such a name.
-/

namespace LazyFS

open Engine

variable {cfg : Config}

/-- The end of a file filled with zeros; when the count of the fill is no `int`, the backing file is
grown as well. -/
def FileView.growTo (cfg : Config) (B size n : ℕ) (s : FileView × ℕ) : FileView × ℕ :=
  if size < n ∧ FS.writeResult cfg (n - size) ≠ ((n - size : ℕ) : ℤ) then
    ({ (FileView.fillTo B size n s).1 with
        disk := Bytes.resize (FileView.fillTo B size n s).1.disk n },
          (FileView.fillTo B size n s).2)
  else FileView.fillTo B size n s

namespace FS

variable {fs fs' : FS} {i : ℕ} {path : Path}

/-- No handle, or one that may be written to, not opened with `direct_io`. -/
def TruncateHandle (i : ℕ) (fi : Option FileInfo) : Prop :=
  ∀ f, fi = some f → f.fh.ino = i ∧ f.fh.writable = true ∧ f.directIo = false

lemma read_zeros (k : ℕ) : Mem.read (fun _ => 0) 0 k = List.replicate k 0 := by
  refine List.ext_getElem? fun j => ?_
  by_cases hj : j < k
  · rw [Mem.getElem?_read _ _ hj, List.getElem?_replicate, if_pos hj]
  · rw [List.getElem?_eq_none (by simpa using hj), List.getElem?_eq_none (by simpa using hj)]

/-- A write at the end of the file, with or without a handle. -/
lemma Sound.lfsWrite_append (h : OnePage cfg) (hS : fs.Sound cfg) (hi : fs.disk.ino path = some i)
    (buf : Mem) {size : ℕ} (hs : 0 < size) (hw : fs.sizeOf i + size ≤ 2 ^ 64)
    {fi : Option FileInfo} (hfi : TruncateHandle i fi) {io fillIo : WriteIo} (hio : io.Ok)
    (hfillIo : fillIo.Ok)
    (hno : EnoughIfLru cfg (fs.file cfg i, fs.free) (fs.sizeOf i) (fs.sizeOf i + size)) :
    ∃ fs', fs.lfsWrite cfg path buf size (fs.sizeOf i) fi io fillIo
        = some (fs', writeResult cfg size) ∧
      Touched cfg path i (fs.sizeOf i + size) fs fs' ∧
      (fs'.file cfg i, fs'.free) = FileView.writeAll cfg.ioBlockSize (fs.sizeOf i) (fs.sizeOf i)
        (buf.read 0 size) (fs.file cfg i, fs.free) := by
  have hmax : max (fs.sizeOf i + size) (fs.sizeOf i) = fs.sizeOf i + size := by omega
  cases fi with
  | none =>
      obtain ⟨fs', h1, h2, h3⟩ := hS.lfsWriteNull h hi buf hs hw hio hno
      rw [hmax] at h2
      exact ⟨fs', h1, h2, h3⟩
  | some f =>
      obtain ⟨fs', h1, h2, h3⟩ := hS.lfsWrite h hi buf hs hw (hfi f rfl) hio hfillIo
        (by rw [min_self]; exact hno)
      rw [hmax] at h2
      rw [FileView.writeAt, FileView.fillTo, if_neg (lt_irrefl _)] at h3
      exact ⟨fs', h1, h2, h3⟩

/-- No item is named by a path. -/
lemma Sound.truncateItem_path (hS : fs.Sound cfg) (path : Path) (n : ℕ) :
    fs.cache.truncateItem cfg (Path.str path) n = some (fs.cache, false) := by
  have hnone : fs.cache.contents.lookup (Path.str path) = none := by
    by_contra hne
    obtain ⟨j, hj⟩ := hS.keys (Path.str path) (fun h => hne (Cache.contents_eq_none_iff.mp h))
    exact Path.str_ne_inodeStr path j hj
  rw [Cache.truncateItem, hnone]

/-- The backing file is cut or grown as well. -/
lemma Touched.backingTruncate {k : ℕ} (h : Touched cfg path i k fs fs')
    (hi : fs.disk.ino path = some i) {fi : Option FileInfo} (hfi : TruncateHandle i fi) (n : ℕ) :
    Touched cfg path i k fs (fs'.backingTruncate path fi n) ∧
      ((fs'.backingTruncate path fi n).file cfg i, (fs'.backingTruncate path fi n).free)
        = ({ fs'.file cfg i with disk := Bytes.resize (fs'.file cfg i).disk n }, fs'.free) := by
  have hfd : ∃ fd : Fd, (fi.map FileInfo.fh).or (fs'.disk.openWrite path) = some fd ∧ fd.ino = i ∧
      fd.writable = true := by
    cases fi with
    | none =>
        have hi' : fs'.disk.ino path = some i := (h.names.ino path).trans hi
        exact ⟨⟨i, false, true⟩, by rw [Disk.openWrite, hi']; rfl, rfl, rfl⟩
    | some f => exact ⟨f.fh, rfl, (hfi f rfl).1, (hfi f rfl).2.1⟩
  obtain ⟨fd, hfd, hino, hwr⟩ := hfd
  have heq : fs'.backingTruncate path fi n
      = ⟨fs'.cache, fs'.disk.setBytes i (Bytes.resize (fs'.disk.bytes i) n)⟩ := by
    rw [FS.backingTruncate, hfd, Disk.ftruncate]
    simp only [hwr, hino, and_self, if_true]
  obtain ⟨hch, hfile⟩ := h.sound.setBytes i (Bytes.resize (fs'.disk.bytes i) n)
  rw [heq]
  exact ⟨h.changed hch, by rw [hfile]; rfl⟩

/-- The change of size of a truncation. -/
lemma Sound.changeSize (h : OnePage cfg) (hS : fs.Sound cfg) (hi : fs.disk.ino path = some i)
    (hT : Touched cfg path i (fs.sizeOf i) fs fs) {n : ℕ} (hn : n ≤ 2 ^ 64)
    {fi : Option FileInfo} (hfi : TruncateHandle i fi)
    {io fillIo : WriteIo} (hio : io.Ok) (hfillIo : fillIo.Ok)
    (hno : fs.sizeOf i < n → EnoughIfLru cfg (fs.file cfg i, fs.free) (fs.sizeOf i) n) :
    ∃ fs', fs.changeSize cfg path n (fs.sizeOf i) fi io fillIo = some fs' ∧
      Touched cfg path i (max n (fs.sizeOf i)) fs fs' ∧
      (fs'.file cfg i, fs'.free) = FileView.growTo cfg cfg.ioBlockSize (fs.sizeOf i) n
        (fs.file cfg i, fs.free) := by
  rw [FS.changeSize, FileView.growTo, FileView.fillTo]
  by_cases hlt : fs.sizeOf i < n
  · have hadd : fs.sizeOf i + (n - fs.sizeOf i) = n := by omega
    obtain ⟨fs', h1, h2, h3⟩ := hS.lfsWrite_append h hi (fun _ => 0)
      (show 0 < n - fs.sizeOf i by omega) (by rw [hadd]; exact hn) hfi hio hfillIo
      (by rw [hadd]; exact hno hlt)
    rw [hadd] at h2
    rw [read_zeros] at h3
    rw [if_pos hlt, if_pos hlt, max_eq_left hlt.le, ← h3]
    dsimp only
    rw [h1, Option.bind_eq_bind, Option.bind_some]
    dsimp only
    by_cases hres : writeResult cfg (n - fs.sizeOf i) ≠ ((n - fs.sizeOf i : ℕ) : ℤ)
    · have hgrown := h2.backingTruncate hi hfi n
      rw [if_pos hres, if_pos ⟨hlt, hres⟩]
      exact ⟨_, rfl, hgrown.1, hgrown.2⟩
    · rw [if_neg hres, if_neg fun hc => hres hc.2]
      exact ⟨fs', rfl, h2, rfl⟩
  · rw [if_neg hlt, if_neg hlt, if_neg (show ¬ (fs.sizeOf i < n ∧ _) from fun hc => hlt hc.1),
      max_eq_right (not_lt.mp hlt)]
    refine ⟨fs, ?_, hT, rfl⟩
    split_ifs
    · rw [hS.truncateItem_path]
      rfl
    · rfl

/-- `lfs_truncate` to any size. -/
theorem Sound.lfsTruncate_any (h : OnePage cfg) (hS : fs.Sound cfg) (hi : fs.disk.ino path = some i)
    {n : ℕ} (hn : n ≤ 2 ^ 64) {fi : Option FileInfo}
    (hfi : TruncateHandle i fi) {io fillIo : WriteIo} (hio : io.Ok) (hfillIo : fillIo.Ok)
    (hno : fs.sizeOf i < n → EnoughIfLru cfg (fs.file cfg i, fs.free) (fs.sizeOf i) n) :
    ∃ fs' r, fs.lfsTruncate cfg path n fi io fillIo = some (fs', r) ∧
      Touched cfg path i n fs fs' ∧
      (fs'.file cfg i, fs'.free) = FileView.growTo cfg cfg.ioBlockSize (fs.sizeOf i) n
        (fs.file cfg i, fs.free) := by
  -- the file is opened, changed in size, and then its metadata is written
  obtain ⟨fs1, st, hget, hopen, -⟩ := hS.lfsGetattr hi
  obtain ⟨m, hm, hmsize⟩ := hopen.touched.exists_meta
  have hm' : fs1.cache.getContentMetadata (inodeStr i) = some m := hm
  have hcont : fs1.cache.hasContentCached (inodeStr i) = true := by
    rw [Cache.getContentMetadata, Option.map_eq_some_iff] at hm'
    obtain ⟨it, hit, -⟩ := hm'
    rw [Cache.hasContentCached, hit]
    rfl
  have hi1 : fs1.disk.ino path = some i := by rw [hopen.disk]; exact hi
  have hself := hopen.touched_self
  rw [← hopen.sizeOf] at hself
  obtain ⟨fs2, hch, ht, hview⟩ := hopen.sound.changeSize h hi1 hself hn
    hfi hio hfillIo
    (by rw [hopen.sizeOf, hopen.view_eq]; exact hno)
  rw [hopen.sizeOf, hopen.view_eq] at hview
  rw [hopen.sizeOf] at hch
  have ht2 := hopen.touched.trans ht
  obtain ⟨m2, hm2, hm2size⟩ := ht2.exists_meta
  have hm2' : fs2.cache.getContentMetadata (inodeStr i) = some m2 := hm2
  refine ⟨fs2.truncateMeta (inodeStr i) n io.now, if cfg.uninitInt = -1 then
    -cfg.errno else 0, ?_, ?_, ?_⟩
  · rw [FS.lfsTruncate]
    simp only [hget, Option.bind_eq_bind, Option.bind_some, FS.truncateInode, hopen.inode, hcont,
      if_true, hm', Option.map_some, Option.getD_some, hmsize, hch]
  · rw [FS.truncateMeta, hm2']
    refine ht2.updateMeta { Metadata.new with size := n, mtim := io.now, ctim := io.now } ?_
    split_ifs
    · exact .inl rfl
    · exact .inr rfl
  · rw [FS.truncateMeta, hm2']
    dsimp only
    rw [file_updateMeta, free_updateMeta, hview]

/-- **`lfs_truncate`**. -/
theorem Sound.lfsTruncate (h : OnePage cfg) (hS : fs.Sound cfg) (hi : fs.disk.ino path = some i)
    {n : ℕ} (hn : n ≤ 2 ^ 64) (hgrow : n < fs.sizeOf i + 2 ^ 31) {fi : Option FileInfo}
    (hfi : TruncateHandle i fi) {io fillIo : WriteIo} (hio : io.Ok) (hfillIo : fillIo.Ok)
    (hno : fs.sizeOf i < n → EnoughIfLru cfg (fs.file cfg i, fs.free) (fs.sizeOf i) n) :
    ∃ fs' r, fs.lfsTruncate cfg path n fi io fillIo = some (fs', r) ∧
      Touched cfg path i n fs fs' ∧
      (fs'.file cfg i, fs'.free) = FileView.fillTo cfg.ioBlockSize (fs.sizeOf i) n
        (fs.file cfg i, fs.free) := by
  obtain ⟨fs', r, htrunc, ht, hview⟩ := hS.lfsTruncate_any h hi hn hfi hio hfillIo hno
  have hres : ¬ (fs.sizeOf i < n ∧ writeResult cfg (n - fs.sizeOf i)
      ≠ ((n - fs.sizeOf i : ℕ) : ℤ)) :=
    fun hc => hc.2 (writeResult_of_lt (by omega))
  rw [FileView.growTo, if_neg hres] at hview
  exact ⟨fs', r, htrunc, ht, hview⟩

end FS

namespace FileView

variable {B : ℕ} {f : FileView} {c : List UInt8} {s : FileView × ℕ}

/-- A file holds every prefix of what it holds. -/
lemma Holds.take (h : Holds B c f) (n : ℕ) : Holds B (c.take n) f := by
  intro i hi
  rw [List.length_take] at hi
  have hat := h i (by omega)
  have hget : (c.take n)[i]? = (c)[i]? := List.getElem?_take_of_lt (by omega)
  rw [At] at hat ⊢
  rw [hget]
  exact hat

/-- A truncation of the view of a file, which changes nothing when it shrinks, is one of its
contents. -/
theorem Holds.resize (h : Holds B c s.1) (hB : 0 < B) {n : ℕ} (hbig : n ≤ 2 ^ 32 * B) :
    Holds B (Bytes.resize c n) (FileView.fillTo B c.length n s).1 := by
  rcases Nat.lt_or_ge c.length n with hlt | hle
  · exact h.fillTo hB hlt hbig
  · rw [FileView.fillTo, if_neg (by omega), Bytes.resize_eq_take c hle]
    exact h.take n

theorem Clean.resize (h : Clean B c s.1) (hB : 0 < B) {n : ℕ} (hbig : n ≤ 2 ^ 32 * B) :
    Clean B (Bytes.resize c n) (FileView.fillTo B c.length n s).1 := by
  rcases Nat.lt_or_ge c.length n with hlt | hle
  · exact h.fillTo hB hlt hbig
  · rw [FileView.fillTo, if_neg (by omega), Bytes.resize_eq_take c hle]
    intro i hi v hv hclean
    rw [List.length_take] at hi
    rw [List.getElem?_take_of_lt (by omega)]
    exact h i (by omega) v hv hclean

/-- A growing truncation keeps the view tight. -/
theorem Tight.resize (ht : Tight B c s.1) (h : Holds B c s.1) (hB : 0 < B) {n : ℕ}
    (hle : c.length ≤ n) (hbig : n ≤ 2 ^ 32 * B) :
    Tight B (Bytes.resize c n) (FileView.fillTo B c.length n s).1 := by
  rcases Nat.lt_or_ge c.length n with hlt | hge
  · exact ht.fillTo h hB hlt hbig
  · have hn : n = c.length := by omega
    rw [FileView.fillTo, if_neg (by omega), hn, Bytes.resize_length]
    exact ht

theorem Bounded.fillTo (h : Bounded B s.1) (hB : 0 < B) {size n : ℕ} :
    Bounded B (FileView.fillTo B size n s).1 := by
  rw [FileView.fillTo]
  split_ifs with hlt
  · exact h.writeAll hB (replicate_ne_nil hlt)
  · exact h

/-- With enough free pages a truncation leaves the backing file alone. -/
theorem fillTo_enough {size n : ℕ} {S : Finset ℤ}
    (hS : size < n → ∀ m ∈ blocksOf B size n, toInt m ∈ S) (hen : s.1.missing S ≤ s.2) :
    (fillTo B size n s).1 = (if size < n then
        s.1.writeBlocks B size (fun _ => true) size (List.replicate (n - size) 0) else s.1) ∧
      (fillTo B size n s).2 + s.1.missing S = s.2 + (fillTo B size n s).1.missing S := by
  rw [fillTo]
  split_ifs with hlt
  · refine writeAll_enough size (fun m hm => hS hlt m ?_) hen
    rw [List.length_replicate] at hm
    have hlen : size + (n - size) = n := by omega
    rwa [hlen] at hm
  · exact ⟨rfl, rfl⟩

end FileView

end LazyFS
