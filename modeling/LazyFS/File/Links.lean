import LazyFS.File.Times
import LazyFS.File.Kept

/-!
The cached **link counts** under calls on files.

* `FS.CountedIf`, `FS.Counted`: a file that is cached has its link count; the file is cached, with
  it.
* `CountedIf.lfsWrite` to `CountedIf.lfsFsync`: a call on a path of a file leaves it counted.
* `FS.Linked`: every cached file is counted and has a name; `FileOp.Own`, `Linked.run`: a call keeps
  it so.
-/

namespace LazyFS

open Engine

variable {cfg : Config}

/-- A path of an inode counts as a link. -/
lemma Disk.nlink_pos {d : Disk} {path : Path} {i : ℕ} (hi : d.ino path = some i) :
    0 < d.nlink i := by
  refine List.length_pos_of_mem (a := (path, .file i)) (List.mem_filter.mpr ⟨?_, by simp⟩)
  exact Map.mem_toList.mpr (FS.lookup_entries_of_ino hi)

namespace Cache

variable {c c' : Cache} {cid : String}

/-- `get_data_blocks`. -/
lemma keepsMeta_getDataBlocks {blocks buffers : Map ℤ Mem} {res : Map ℤ (Bool × (ℤ × ℤ))}
    (h : c.getDataBlocks cfg cid blocks = some (c', res, buffers)) : KeepsMeta c c' := by
  have hloop : ∀ (l : List (ℤ × Bool)) (e : Engine) (it it' : Item)
      (res res' : Map ℤ (Bool × (ℤ × ℤ))), getLoop cfg e cid l it res = some (it', res') →
        it'.metadata = it.metadata := by
    intro l
    induction l with
    | nil =>
        intro e it it' res res' h
        cases h
        rfl
    | cons x l ih =>
        intro e it it' res res' h
        obtain ⟨bid, found⟩ := x
        obtain ⟨offs, -, h⟩ := Option.bind_eq_some_iff.mp h
        refine (ih _ _ _ _ _ h).trans ?_
        split_ifs <;> rfl
  rw [getDataBlocks] at h
  split at h
  · cases h
    exact .refl c
  · rename_i it hit
    obtain ⟨⟨it', res'⟩, hl, h⟩ := Option.bind_eq_some_iff.mp h
    rw [Option.some.injEq, Prod.mk.injEq] at h
    rw [← h.1]
    exact .setItem hit _ (hloop _ _ _ _ _ _ hl) _

end Cache

namespace FS

variable {fs fs' fs'' : FS} {path : Path} {i : ℕ}

/-- The file is cached, with its link count. -/
def Counted (i : ℕ) (fs : FS) : Prop := (fs.metaOf i).map Metadata.nlinks = some (fs.disk.nlink i)

/-- The file has its link count when it is cached. -/
def CountedIf (i : ℕ) (fs : FS) : Prop := ∀ m, fs.metaOf i = some m → m.nlinks = fs.disk.nlink i

namespace Counted

lemma countedIf (h : Counted i fs) : CountedIf i fs := by
  intro m hm
  rw [Counted, hm, Option.map_some, Option.some.injEq] at h
  exact h

/-- What changes neither the names nor the metadata. -/
lemma keep (h : Counted i fs) (hk : fs.cache.KeepsMeta fs'.cache)
    (hd : Disk.SameNames fs.disk fs'.disk) :
    Counted i fs' := by
  obtain ⟨m, hm, hn⟩ := Option.map_eq_some_iff.mp h
  have hm' : fs'.metaOf i = some m := hk.metadata _ m hm
  rw [Counted, hm', Option.map_some, hn, hd.nlink]

/-- An update of the size and the times. -/
lemma updateMeta (h : Counted i fs) (m : Metadata) {values : List MetaField}
    (hv : values = [.size, .mtime, .ctime] ∨ values = [.size, .mtime]) :
    Counted i (fs.updateMeta (inodeStr i) m values) := by
  obtain ⟨m', hm', hn⟩ := Option.map_eq_some_iff.mp h
  have hdisk : (fs.updateMeta (inodeStr i) m values).disk = fs.disk := rfl
  rw [Counted, metaOf_updateMeta, if_pos rfl, hm', Option.map_some, Option.map_some, hdisk, ← hn]
  rcases hv with rfl | rfl <;> rfl

end Counted

/-- `lfs_getattr` caches the link count with the rest. -/
lemma Opened.counted (h : Opened cfg path i fs fs') (hc : CountedIf i fs) : Counted i fs' := by
  rw [Counted, h.metaOf, if_pos rfl, Option.map_some, h.disk]
  cases hm : fs.metaOf i with
  | none => rfl
  | some m => rw [Option.getD_some, hc m hm]

namespace CountedIf

/-- The write on an open descriptor. -/
lemma writeOn (hc : CountedIf i fs) (hS : fs.Sound cfg) (hi : fs.disk.ino path = some i)
    {fill : ℕ → FS → Option FS}
    (hfill : ∀ n fs1 fs2, Opened cfg path i fs fs1 → Counted i fs1 → fill n fs1 = some fs2 →
      Counted i fs2)
    {buf : Mem} {size offset : ℕ} {fd : Fd} {io : WriteIo} {r : ℤ}
    (h : fs.writeOn cfg fill path buf size offset fd false io = some (fs', r)) : Counted i fs' := by
  obtain ⟨fs1, st, hget, hopen, -⟩ := hS.lfsGetattr hi
  rw [writeOn_eq] at h
  obtain ⟨⟨fs0, inode, n⟩, h1, h⟩ := Option.bind_eq_some_iff.mp h
  obtain ⟨fs2, h2, h⟩ := Option.bind_eq_some_iff.mp h
  obtain ⟨fs3, h3, heq⟩ := Option.map_eq_some_iff.mp h
  rw [FS.writeStart, hget, Option.bind_eq_bind, Option.bind_some] at h1
  dsimp only at h1
  rw [Option.some.injEq, Prod.mk.injEq, Prod.mk.injEq, hopen.inode] at h1
  obtain ⟨rfl, rfl, -⟩ := h1
  have h2 := hfill _ _ _ hopen (hopen.counted hc) h2
  obtain ⟨fs4, h4, h3⟩ := Option.bind_eq_some_iff.mp h3
  rw [Option.some.injEq] at h3
  have h4 := h2.keep (keepsMeta_writeLoop _ h4) (sameNames_writeLoop _ h4)
  rw [Prod.mk.injEq] at heq
  rw [← heq.1, ← h3, writeMeta]
  dsimp only
  refine h4.updateMeta _ ?_
  split_ifs
  · exact .inl rfl
  · exact .inr rfl

/-- `lfs_write` with a null handle. -/
lemma lfsWriteNull (hc : CountedIf i fs) (hS : fs.Sound cfg) (hi : fs.disk.ino path = some i)
    {buf : Mem} {size offset : ℕ} {io : WriteIo} {r : ℤ}
    (h : fs.lfsWriteNull cfg path buf size offset io = some (fs', r)) : Counted i fs' := by
  rw [FS.lfsWriteNull] at h
  split at h
  · rename_i hfd
    rw [Disk.openWrite, hi] at hfd
    cases hfd
  · refine hc.writeOn hS hi (fun n fs1 fs2 _ h1 h2 => ?_) h
    cases h2
    exact h1

/-- **`lfs_write`**. -/
theorem lfsWrite (hc : CountedIf i fs) (hS : fs.Sound cfg) (hi : fs.disk.ino path = some i)
    {buf : Mem} {size offset : ℕ} {fi : Option FileInfo}
    (hfi : ∀ f, fi = some f → f.directIo = false) {io fillIo : WriteIo} {r : ℤ}
    (h : fs.lfsWrite cfg path buf size offset fi io fillIo = some (fs', r)) :
    Counted i fs' := by
  cases fi with
  | none => exact hc.lfsWriteNull hS hi h
  | some fi =>
      rw [FS.lfsWrite, hfi fi rfl] at h
      refine hc.writeOn hS hi (fun n fs1 fs2 hopen h1 h2 => ?_) h
      rw [FS.fillHole] at h2
      split_ifs at h2
      · obtain ⟨⟨fs3, r3⟩, h3, rfl⟩ := Option.map_eq_some_iff.mp h2
        exact h1.countedIf.lfsWriteNull hopen.sound (by rw [hopen.disk]; exact hi) h3
      · cases h2
        exact h1

/-- **`lfs_truncate`**. -/
theorem lfsTruncate (hc : CountedIf i fs) (hS : fs.Sound cfg)
    (hi : fs.disk.ino path = some i) {n : ℕ} {fi : Option FileInfo}
    (hfi : ∀ f, fi = some f → f.directIo = false) {io fillIo : WriteIo} {r : ℤ}
    (h : fs.lfsTruncate cfg path n fi io fillIo = some (fs', r)) : Counted i fs' := by
  obtain ⟨fs1, st, hget, hopen, -⟩ := hS.lfsGetattr hi
  have h1 := hopen.counted hc
  have hi1 : fs1.disk.ino path = some i := by rw [hopen.disk]; exact hi
  rw [FS.lfsTruncate, hget, Option.bind_eq_bind, Option.bind_some] at h
  dsimp only at h
  obtain ⟨⟨fs2, inode⟩, h2, h⟩ := Option.bind_eq_some_iff.mp h
  -- the item is there
  have hcached : fs1.cache.hasContentCached (inodeStr i) = true := by
    have hsome := hopen.touched.isSome
    rwa [FS.metaOf, Cache.getContentMetadata, Option.isSome_map] at hsome
  rw [truncateInode, hopen.inode, if_pos hcached, Option.some.injEq, Prod.mk.injEq] at h2
  obtain ⟨rfl, rfl⟩ := h2
  obtain ⟨fs3, h3, h⟩ := Option.bind_eq_some_iff.mp h
  rw [Option.some.injEq, Prod.mk.injEq] at h
  have h3 : Counted i fs3 := by
    rw [FS.changeSize] at h3
    split_ifs at h3
    · obtain ⟨⟨fs4, r4⟩, h4, h3⟩ := Option.bind_eq_some_iff.mp h3
      have hw := h1.countedIf.lfsWrite hopen.sound hi1 hfi h4
      dsimp only at h3
      split_ifs at h3
      · cases h3
        exact hw.keep (.refl _) (sameNames_backingTruncate _ _ _ _)
      · cases h3
        exact hw
    · obtain ⟨⟨c, r4⟩, h4, h3⟩ := Option.bind_eq_some_iff.mp h3
      cases h3
      exact h1.keep (Cache.keepsMeta_truncateItem h4) (.refl _)
    · cases h3
      exact h1
  obtain ⟨m, hm, -⟩ := Option.map_eq_some_iff.mp h3
  have hm' : fs3.cache.getContentMetadata (inodeStr i) = some m := hm
  rw [← h.1, truncateMeta, hm']
  refine h3.updateMeta _ ?_
  split_ifs
  · exact .inl rfl
  · exact .inr rfl

/-- **`lfs_fsync`**. -/
theorem lfsFsync (hc : CountedIf i fs) (hS : fs.Sound cfg) (hi : fs.disk.ino path = some i)
    {isdatasync : Bool} {io : SyncIo} {r : ℤ}
    (h : fs.lfsFsync cfg path isdatasync io = some (fs', r)) : Counted i fs' := by
  obtain ⟨fs1, st, hget, hopen, -⟩ := hS.lfsGetattr hi
  rw [lfsFsync_eq, hget, Option.bind_some] at h
  refine (hopen.counted hc).keep ?_ (sameNames_fsyncRest h)
  rw [FS.fsyncRest] at h
  dsimp only at h
  split_ifs at h
  · obtain ⟨⟨c, d, res⟩, h2, h⟩ := Option.bind_eq_some_iff.mp h
    cases h
    exact Cache.keepsMeta_syncOwner h2
  · cases h
    exact .refl _
  · cases h
    exact .refl _

/-- A cached block is copied. -/
lemma keepsMeta_copyCached {r : ReadCtx} {cur : ℕ} {a b : ℤ} {s s' : ReadState}
    (h : copyCached cfg r cur a b s = some s') : s.fs.cache.KeepsMeta s'.fs.cache := by
  obtain ⟨⟨c, found, buffers⟩, h1, h⟩ := Option.bind_eq_some_iff.mp h
  have hk := Cache.keepsMeta_getDataBlocks h1
  dsimp only at h
  split at h
  · split_ifs at h
    all_goals
      cases h
      exact hk
  · cases h
    exact hk

/-- One turn of the block loop of `lfs_read`. -/
lemma keepsMeta_readBlock {r : ReadCtx} {cur : ℕ} {s s' : ReadState} {continues : Bool}
    (h : readBlock cfg r cur s = some (s', continues)) : s.fs.cache.KeepsMeta s'.fs.cache := by
  rw [readBlock] at h
  dsimp only at h
  split_ifs at h
  all_goals first
    | (cases h; exact .refl _)
    | (obtain ⟨s1, h1, h⟩ := Option.bind_eq_some_iff.mp h
       cases h
       have hk := keepsMeta_copyCached h1
       exact hk)

/-- The block loop of `lfs_read`. -/
lemma keepsMeta_readLoop {r : ReadCtx} (l : List ℕ) : ∀ {s s' : ReadState},
    readLoop cfg r l s = some s' → s.fs.cache.KeepsMeta s'.fs.cache := by
  induction l with
  | nil =>
      intro s s' h
      cases h
      exact .refl _
  | cons cur l ih =>
      intro s s' h
      obtain ⟨⟨s1, continues⟩, h1, h⟩ := Option.bind_eq_some_iff.mp h
      have hk := keepsMeta_readBlock h1
      dsimp only at h
      split_ifs at h
      · exact hk.trans (ih h)
      · cases h
        exact hk

/-- **`lfs_read`**, which changes no name. -/
theorem lfsRead (hc : CountedIf i fs) (hS : fs.Sound cfg) (hi : fs.disk.ino path = some i)
    {buf buf' : Mem} {size offset : ℕ} {fi : Option FileInfo} {io : ReadIo} {r : ℤ}
    (h : fs.lfsRead cfg path buf size offset fi io = some (fs', r, buf'))
    (hd : Disk.SameNames fs.disk fs'.disk) : CountedIf i fs' := by
  obtain ⟨fs1, st, hget, hopen, -⟩ := hS.lfsGetattr hi
  have h1 := hopen.counted hc
  rw [← hopen.disk] at hd
  obtain ⟨m, hm, -⟩ := Option.map_eq_some_iff.mp h1
  rw [FS.lfsRead] at h
  split at h
  · cases h
    exact hc
  · rw [hget, Option.bind_eq_bind, Option.bind_some] at h
    dsimp only at h
    rw [hopen.inode, FS.readMeta, show fs1.cache.getContentMetadata (inodeStr i)
      = some m from hm] at h
    dsimp only [Option.bind_eq_bind, Option.bind_some] at h
    split_ifs at h
    · cases h
      exact h1.countedIf
    · obtain ⟨s, h2, h⟩ := Option.bind_eq_some_iff.mp h
      have hk := keepsMeta_readLoop _ h2
      refine (h1.keep ?_ hd).countedIf
      split_ifs at h
      all_goals
        cases h
        exact hk

end CountedIf

/-! ### Every file -/

/-- Every cached file has its link count, and a name. -/
def Linked (fs : FS) : Prop := ∀ i m, fs.metaOf i = some m → m.nlinks = fs.disk.nlink i ∧
  0 < fs.disk.nlink i

end FS

/-- What a call needs to change its own file only. -/
def FileOp.Own (cfg : Config) (fs : FS) : FileOp → Prop
  | getattr path => ∃ i, fs.disk.ino path = some i
  | read path _ size offset fi io => ∃ i, fs.disk.ino path = some i ∧ 0 < size ∧
      offset + size ≤ 2 ^ 64 ∧
      FS.ReadHandle i fi ∧ FS.ReadIo.Ok io
  | write path _ size offset fi io fillIo => ∃ i, fs.disk.ino path = some i ∧ 0 < size ∧
      offset + size ≤ 2 ^ 64 ∧ (fi.fh.ino = i ∧ fi.fh.writable = true ∧ fi.directIo = false) ∧
      io.Ok ∧ fillIo.Ok
  | truncate path n fi io fillIo => ∃ i, fs.disk.ino path = some i ∧ n ≤ 2 ^ 64 ∧
      FS.TruncateHandle i fi ∧ io.Ok ∧ fillIo.Ok
  | fsync path _ _ => ∃ i, fs.disk.ino path = some i ∧
      FileView.Bounded cfg.ioBlockSize (fs.file cfg i)
  | clear => True

namespace FS

variable {op : FileOp} {res : FileRes}

/-- A call changes its own file only. -/
lemma Sound.touched_of_run (h : OnePage cfg) (hlru : cfg.applyLruEviction = false)
    (hS : fs.Sound cfg) (hop : op.Own cfg fs) (hpath : op.path? = some path)
    (hrun : op.run cfg fs = some (fs', res)) :
    ∃ i n, fs.disk.ino path = some i ∧ Touched cfg path i n fs fs' := by
  -- the theorem of each call, of a file that has a name
  cases op with
  | getattr p =>
      obtain rfl := Option.some.inj hpath
      obtain ⟨i, hi⟩ := hop
      obtain ⟨fs1, st, hget, hopen, -⟩ := hS.lfsGetattr hi
      rw [FileOp.run, hget] at hrun
      cases hrun
      exact ⟨i, _, hi, hopen.touched⟩
  | read p buf size offset fi io =>
      obtain rfl := Option.some.inj hpath
      obtain ⟨i, hi, hsize, hw, hfi, hio⟩ := hop
      obtain ⟨hnone, hsome⟩ := hS.lfsRead h.pos hi buf hsize hw hfi hio
      obtain ⟨⟨fs1, r, buf'⟩, hread, heq⟩ := Option.map_eq_some_iff.mp hrun
      cases hv : (fs.file cfg i).read cfg.ioBlockSize (fs.sizeOf i) offset size buf with
      | none =>
          rw [hnone hv] at hread
          cases hread
      | some kb =>
          obtain ⟨fs2, hread2, ht, -⟩ := hsome kb.1 kb.2 hv
          rw [hread2] at hread
          cases hread
          cases heq
          exact ⟨i, _, hi, ht⟩
  | write p buf size offset fi io fillIo =>
      obtain rfl := Option.some.inj hpath
      obtain ⟨i, hi, hsize, hw, hfi, hio, hfillIo⟩ := hop
      obtain ⟨fs1, hwrite, ht, -⟩ :=
        hS.lfsWrite h hi buf hsize hw hfi hio hfillIo (enoughIfLru_of_off hlru _ _ _)
      rw [FileOp.run, hwrite] at hrun
      cases hrun
      exact ⟨i, _, hi, ht⟩
  | truncate p n fi io fillIo =>
      obtain rfl := Option.some.inj hpath
      obtain ⟨i, hi, hn, hfi, hio, hfillIo⟩ := hop
      obtain ⟨fs1, r, htrunc, ht, -⟩ := hS.lfsTruncate_any h hi hn hfi hio hfillIo
        fun _ => enoughIfLru_of_off hlru _ _ _
      rw [FileOp.run, htrunc] at hrun
      cases hrun
      exact ⟨i, _, hi, ht⟩
  | fsync p isdatasync io =>
      obtain rfl := Option.some.inj hpath
      obtain ⟨i, hi, hbound⟩ := hop
      obtain ⟨fs1, disk1, hsync, ht, -⟩ := hS.lfsFsync hi hbound isdatasync io
      rw [FileOp.run, hsync] at hrun
      cases hrun
      exact ⟨i, _, hi, ht⟩
  | clear => cases hpath

/-- The file of a call stays counted. -/
lemma CountedIf.run {i : ℕ} (hc : CountedIf i fs) (hS : fs.Sound cfg) (hop : op.Own cfg fs)
    (hpath : op.path? = some path) (hi : fs.disk.ino path = some i)
    (hrun : op.run cfg fs = some (fs', res)) (hd : Disk.SameNames fs.disk fs'.disk) :
    CountedIf i fs' := by
  cases op with
  | getattr p =>
      obtain rfl := Option.some.inj hpath
      obtain ⟨fs1, st, hget, hopen, -⟩ := hS.lfsGetattr hi
      rw [FileOp.run, hget] at hrun
      cases hrun
      exact (hopen.counted hc).countedIf
  | read p buf size offset fi io =>
      obtain rfl := Option.some.inj hpath
      obtain ⟨⟨fs1, r, buf'⟩, hread, heq⟩ := Option.map_eq_some_iff.mp hrun
      cases heq
      exact hc.lfsRead hS hi hread hd
  | write p buf size offset fi io fillIo =>
      obtain rfl := Option.some.inj hpath
      obtain ⟨j, -, -, -, hfi, -⟩ := hop
      obtain ⟨⟨fs1, r⟩, hwrite, heq⟩ := Option.map_eq_some_iff.mp hrun
      cases heq
      refine (hc.lfsWrite hS hi (fun f hf => ?_) hwrite).countedIf
      rw [← Option.some.inj hf]
      exact hfi.2.2
  | truncate p n fi io fillIo =>
      obtain rfl := Option.some.inj hpath
      obtain ⟨j, -, -, hfi, -⟩ := hop
      obtain ⟨⟨fs1, r⟩, htrunc, heq⟩ := Option.map_eq_some_iff.mp hrun
      cases heq
      exact (hc.lfsTruncate hS hi (fun f hf => (hfi f hf).2.2) htrunc).countedIf
  | fsync p isdatasync io =>
      obtain rfl := Option.some.inj hpath
      obtain ⟨⟨fs1, r⟩, hsync, heq⟩ := Option.map_eq_some_iff.mp hrun
      cases heq
      exact (hc.lfsFsync hS hi hsync).countedIf
  | clear => cases hpath

/-- **One call** keeps every cached file counted. -/
theorem Linked.run (h : OnePage cfg) (hlru : cfg.applyLruEviction = false) (hL : fs.Linked)
    (hS : fs.Sound cfg) (hop : op.Own cfg fs) (hrun : op.run cfg fs = some (fs', res)) :
    fs'.Linked := by
  cases hpath : op.path? with
  | none =>
      -- only a clear has no path
      cases op with
      | clear =>
          cases hrun
          intro i m hm
          rw [(hS.clearAllCache h).2.2.1 i] at hm
          cases hm
      | getattr | read | write | truncate | fsync => cases hpath
  | some path =>
      obtain ⟨i, n, hi, ht⟩ := hS.touched_of_run h hlru hop hpath hrun
      intro j m hm
      rw [ht.names.nlink]
      by_cases hj : j = i
      · subst hj
        have hc : CountedIf j fs := fun m hm => (hL j m hm).1
        rw [hc.run hS hop hpath hi hrun ht.names m hm, ht.names.nlink]
        exact ⟨rfl, Disk.nlink_pos hi⟩
      · rw [ht.metaOf j hj] at hm
        exact hL j m hm

end FS

end LazyFS
