import LazyFS.Rep.Names
import LazyFS.File.WriteOp

/-!
The times of a file under each call, whatever the configuration and the state of the cache.

* `Cache.KeepsMeta`: what the operations on blocks leave of the names and the metadata.
* `FS.Named`, `FS.shown`: the mapped names of a file are mapped to it; the times that `lfs_getattr`
  shows of it, by `Named.lfsGetattr`.
* `FS.Timed`: the file is cached, with given times; `Named.lfsWrite`, `Named.lfsTruncate` and
  `Named.lfsFsync` are the calls.
-/

namespace LazyFS

variable {cfg : Config}

/-! ### Blocks -/

namespace Cache

variable {c c' c'' : Cache} {cid : String}

/-- The names are the same, and the items that were there have the same metadata. -/
structure KeepsMeta (c c' : Cache) : Prop where
  mapping : c'.fileInodeMapping = c.fileInodeMapping
  metadata : ∀ o m, c.getContentMetadata o = some m → c'.getContentMetadata o = some m

namespace KeepsMeta

lemma refl (c : Cache) : KeepsMeta c c := ⟨rfl, fun _ _ h => h⟩

lemma trans (h : KeepsMeta c c') (h' : KeepsMeta c' c'') : KeepsMeta c c'' :=
  ⟨h'.mapping.trans h.mapping, fun o m hm => h'.metadata o m (h.metadata o m hm)⟩

/-- An item replaced by one with the same metadata. -/
lemma setItem {it : Item} (hit : c.contents.lookup cid = some it) (it' : Item)
    (h : it'.metadata = it.metadata) (e : Engine) :
    KeepsMeta c { (c.setItem cid it') with engine := e } where
  mapping := rfl
  metadata := fun o m hm => by
    have heq := getContentMetadata_setItem c cid o it'
    by_cases ho : o = cid
    · subst ho
      rw [getContentMetadata, hit, Option.map_some, Option.some.injEq] at hm
      rw [if_pos rfl, h, hm] at heq
      exact heq
    · rw [if_neg ho, hm] at heq
      exact heq

lemma createItem (hn : c.contents.lookup cid = none) : KeepsMeta c (c.createItem cid) where
  mapping := rfl
  metadata := fun o m hm => by
    have ho : o ≠ cid := by
      rintro rfl
      rw [contents_eq_none_iff.mpr hn] at hm
      cases hm
    rwa [getContentMetadata, lookup_createItem, if_neg ho]

end KeepsMeta

lemma metadata_putLoop {blocks : Map ℤ BlockPut} (l : List (ℤ × Option ℕ)) :
    ∀ {it it' : Item} {e e' : Engine} {res res' : Map ℤ Bool} {any any' : Bool},
      putLoop cfg cid blocks l it e res any = some (it', e', res', any') →
        it'.metadata = it.metadata := by
  induction l with
  | nil =>
      intro it it' e e' res res' any any' h
      cases h
      rfl
  | cons x l ih =>
      intro it it' e e' res res' any any' h
      obtain ⟨bid, page⟩ := x
      obtain ⟨b, -, h⟩ := Option.bind_eq_some_iff.mp h
      cases page with
      | none =>
          have hrest := ih h
          exact hrest
      | some p =>
          obtain ⟨e1, -, h⟩ := Option.bind_eq_some_iff.mp h
          have hrest := ih h
          exact hrest

/-- `put_data_blocks`. -/
lemma keepsMeta_putDataBlocks {d d' : Disk} {blocks : Map ℤ BlockPut} {op : AllocateOperationType}
    {r : Map ℤ Bool} (h : c.putDataBlocks cfg d cid blocks op = some (c', d', r)) :
    KeepsMeta c c' := by
  rw [putDataBlocks] at h
  set c1 := if (!c.hasContentCached cid) = true then c.createItem cid else c with hc1
  have hstart : KeepsMeta c c1 := by
    rw [hc1]
    split_ifs with hn
    · refine .createItem ?_
      rw [Bool.not_eq_true', hasContentCached, Option.isSome_eq_false_iff,
        Option.isNone_iff_eq_none] at hn
      exact hn
    · exact .refl c
  obtain ⟨it, hit, h⟩ := Option.bind_eq_some_iff.mp h
  obtain ⟨⟨e1, d1, al⟩, -, h⟩ := Option.bind_eq_some_iff.mp h
  obtain ⟨⟨it1, e2, res, any⟩, h2, h⟩ := Option.bind_eq_some_iff.mp h
  cases h
  have hmeta := metadata_putLoop _ h2
  refine hstart.trans (.setItem hit _ ?_ e2)
  rw [← hmeta]
  split_ifs <;> rfl

/-- `truncate_item`, whatever the name of the item. -/
lemma keepsMeta_truncateItem {n : ℕ} {r : Bool} (h : c.truncateItem cfg cid n = some (c', r)) :
    KeepsMeta c c' := by
  rw [truncateItem] at h
  split at h
  · cases h
    exact .refl c
  · rename_i it hit
    split_ifs at h
    · cases h
      exact .setItem hit _ (by rfl) _
    · cases h
      exact .refl c
    · obtain ⟨e, -, h⟩ := Option.bind_eq_some_iff.mp h
      cases h
      exact .setItem hit _ (by rfl) e

lemma keepsMeta_syncOwner {d d' : Disk} {onlySyncData : Bool} {path : Path}
    {io : Engine.SyncIo} {r : ℤ}
    (h : c.syncOwner cfg d cid onlySyncData path io = some (c', d', r)) : KeepsMeta c c' := by
  rw [syncOwner] at h
  split at h
  · cases h
    exact .refl c
  · rename_i it hit
    obtain ⟨⟨e, d1⟩, -, h⟩ := Option.bind_eq_some_iff.mp h
    cases h
    exact .setItem hit _ (by rfl) e

end Cache

namespace FS

variable {fs fs' fs'' : FS} {path : Path} {i : ℕ} {t : Timespec × Timespec}

lemma keepsMeta_putOrWrite {w : WriteCtx} {cur : ℕ} {b : BlockPut} {cacheFull r : Bool}
    (h : fs.putOrWrite cfg w cur b cacheFull = some (fs', r)) : fs.cache.KeepsMeta fs'.cache := by
  have hstore : ∀ (fs1 : FS) (stored : Bool),
      (if stored then some (fs1, true) else some (fs1.writeThrough cfg w cur b)) = some (fs', r) →
      fs'.cache = fs1.cache := by
    intro fs1 stored h
    split_ifs at h
    · cases h
      rfl
    · cases h
      rfl
  rw [putOrWrite] at h
  dsimp only at h
  split_ifs at h
  · rw [hstore fs false h]
    exact .refl _
  · obtain ⟨⟨fs1, stored⟩, h1, h⟩ := Option.bind_eq_some_iff.mp h
    obtain ⟨⟨c, d, res⟩, h2, h1⟩ := Option.bind_eq_some_iff.mp h1
    rw [Option.some.injEq, Prod.mk.injEq] at h1
    obtain ⟨rfl, -⟩ := h1
    rw [hstore ⟨c, d⟩ stored h]
    exact Cache.keepsMeta_putDataBlocks h2

lemma keepsMeta_writeBlock {w : WriteCtx} {cur : ℕ} {a b : ℤ} {r : Bool}
    (h : writeBlock cfg w cur fs a = some (fs', b, r)) : fs.cache.KeepsMeta fs'.cache := by
  rw [writeBlock] at h
  dsimp only at h
  split_ifs at h
  all_goals first
    | (cases h; exact .refl _)
    | (obtain ⟨⟨fs1, w1⟩, h1, h⟩ := Option.bind_eq_some_iff.mp h
       cases h
       exact keepsMeta_putOrWrite h1)

/-- The block loop of `lfs_write`. -/
lemma keepsMeta_writeLoop {w : WriteCtx} (l : List ℕ) : ∀ {fs : FS} {a : ℤ},
    writeLoop cfg w l fs a = some fs' → fs.cache.KeepsMeta fs'.cache := by
  induction l with
  | nil =>
      intro fs a h
      cases h
      exact .refl _
  | cons cur l ih =>
      intro fs a h
      obtain ⟨⟨fs1, b, r⟩, h1, h⟩ := Option.bind_eq_some_iff.mp h
      have hk := keepsMeta_writeBlock h1
      dsimp only at h
      split_ifs at h
      · exact hk.trans (ih h)
      · cases h
        exact hk

/-! ### The times of a file -/

/-- The names of the file that are mapped are mapped to it. -/
def Named (i : ℕ) (fs : FS) : Prop :=
  ∀ p s, fs.disk.ino p = some i → fs.cache.fileInodeMapping.lookup p = some s → s = inodeStr i

/-- The times of access and of modification that `lfs_getattr` shows of the file: the cached ones
when it is cached, and those of the backing file otherwise. -/
def shown (fs : FS) (i : ℕ) : Timespec × Timespec :=
  match fs.metaOf i with
  | some m => (m.atim, m.mtim)
  | none => ((fs.disk.times i).atim, (fs.disk.times i).mtim)

/-- Since `fs` no name has changed but the one looked up, and the file is cached with the times
`t`. -/
structure Timed (path : Path) (i : ℕ) (t : Timespec × Timespec) (fs fs' : FS) : Prop where
  names : Disk.SameNames fs.disk fs'.disk
  mapping : ∀ p, fs'.cache.fileInodeMapping.lookup p
    = if p = path then some (inodeStr i) else fs.cache.fileInodeMapping.lookup p
  times : (fs'.metaOf i).map (fun m => (m.atim, m.mtim)) = some t

namespace Timed

lemma inode (h : Timed path i t fs fs') : fs'.cache.getOriginalInode path = inodeStr i := by
  rw [Cache.getOriginalInode, h.mapping, if_pos rfl, Option.getD_some]

lemma metaOf (h : Timed path i t fs fs') :
    ∃ m, fs'.metaOf i = some m ∧ m.atim = t.1 ∧ m.mtim = t.2 := by
  obtain ⟨m, hm, heq⟩ := Option.map_eq_some_iff.mp h.times
  exact ⟨m, hm, congrArg Prod.fst heq, congrArg Prod.snd heq⟩

lemma shown (h : Timed path i t fs fs') : fs'.shown i = t := by
  obtain ⟨m, hm, h1, h2⟩ := h.metaOf
  rw [FS.shown, hm]
  exact Prod.ext h1 h2

lemma isSome (h : Timed path i t fs fs') : (fs'.metaOf i).isSome := by
  obtain ⟨m, hm, -⟩ := h.metaOf
  rw [hm]
  rfl

lemma named (h : Timed path i t fs fs') (hN : fs.Named i) : fs'.Named i := by
  intro p s hp hs
  rw [h.mapping] at hs
  split_ifs at hs
  · rw [Option.some.injEq] at hs
    exact hs.symm
  · rw [h.names.ino] at hp
    exact hN p s hp hs

/-- What changes neither the names nor the metadata. -/
lemma keep (h : Timed path i t fs fs') (hk : fs'.cache.KeepsMeta fs''.cache)
    (hd : Disk.SameNames fs'.disk fs''.disk) : Timed path i t fs fs'' where
  names := h.names.trans hd
  mapping := fun p => by rw [hk.mapping, h.mapping]
  times := by
    obtain ⟨m, hm, h1, h2⟩ := h.metaOf
    have hm' : fs''.metaOf i = some m := hk.metadata _ m hm
    rw [hm', Option.map_some, h1, h2]

lemma trans {t' : Timespec × Timespec} (h : Timed path i t fs fs') (h' : Timed path i t' fs' fs'') :
    Timed path i t' fs fs'' where
  names := h.names.trans h'.names
  mapping := fun p => by
    rw [h'.mapping, h.mapping]
    split_ifs <;> rfl
  times := h'.times

/-- The metadata of the file is updated. -/
lemma updateMeta (h : Timed path i t fs fs') {m : Metadata} {now : Timespec} (hnow : m.mtim = now)
    {values : List MetaField} (hv : values = [.size, .mtime, .ctime] ∨ values = [.size, .mtime]) :
    Timed path i (t.1, now) fs (fs'.updateMeta (inodeStr i) m values) where
  names := h.names
  mapping := fun p => by
    rw [← h.mapping, FS.updateMeta]
    dsimp only [FS.setCache]
    rw [Cache.fileInodeMapping_updateContentMetadata]
  times := by
    obtain ⟨m', hm', h1, -⟩ := h.metaOf
    rw [metaOf_updateMeta, if_pos rfl, hm', Option.map_some, Option.map_some, ← h1, ← hnow]
    rcases hv with rfl | rfl <;> rfl

end Timed

lemma shown_of_metaOf_none (h : fs.metaOf i = none) :
    fs.shown i = ((fs.disk.times i).atim, (fs.disk.times i).mtim) := by
  rw [shown, h]

/-! ### The calls -/

namespace Named

/-- **`lfs_getattr`** returns the times shown of the file, and caches them. -/
theorem lfsGetattr (cfg : Config) (hN : fs.Named i) (hi : fs.disk.ino path = some i) :
    ∃ fs' st, fs.lfsGetattr cfg path = some (fs', .reg st) ∧
      (st.stTimes.atim, st.stTimes.mtim) = fs.shown i ∧ Timed path i (fs.shown i) fs fs' := by
  -- the path is mapped first
  obtain ⟨fs1, hfs1, hdisk1, hmap1, hcont1⟩ : ∃ fs1 : FS,
      (let mapped := fs.cache.getOriginalInode path
       (if mapped = "" then inodeStr i else mapped,
        if mapped = "" then fs.setCache (fs.cache.insertInodeMapping path
          (if mapped = "" then inodeStr i else mapped) false) else fs)) = (inodeStr i, fs1) ∧
      fs1.disk = fs.disk ∧
      (∀ p, fs1.cache.fileInodeMapping.lookup p
        = if p = path then some (inodeStr i) else fs.cache.fileInodeMapping.lookup p) ∧
      fs1.cache.contents = fs.cache.contents := by
    cases hs : fs.cache.fileInodeMapping.lookup path with
    | none =>
        refine ⟨fs.setCache (fs.cache.insertInodeMapping path (inodeStr i) false), ?_, rfl,
          fun p => Map.lookup_set _ _ _ _, rfl⟩
        simp [Cache.getOriginalInode, hs]
    | some s =>
        have hsi := hN path s hi hs
        refine ⟨fs, ?_, rfl, fun p => ?_, rfl⟩
        · simp [Cache.getOriginalInode, hs, hsi, inodeStr_ne_empty]
        · split_ifs with hp
          · rw [hp, hs, hsi]
          · rfl
  have hmeta1 : fs1.metaOf i = fs.metaOf i := by
    rw [FS.metaOf, FS.metaOf, Cache.getContentMetadata, Cache.getContentMetadata, hcont1]
  rw [Prod.mk.injEq] at hfs1
  rw [FS.lfsGetattr, lookup_entries_of_ino hi]
  dsimp only at hfs1 ⊢
  obtain ⟨hmapped, hstate⟩ := hfs1
  rw [hmapped] at hstate
  rw [hmapped, hstate]
  cases hm : fs1.cache.getContentMetadata (inodeStr i) with
  | some m =>
      have hmi : fs.metaOf i = some m := by rw [← hmeta1]; exact hm
      have hshown : fs.shown i = (m.atim, m.mtim) := by rw [shown, hmi]
      refine ⟨fs1, _, rfl, hshown.symm, ⟨by rw [hdisk1]; exact .refl _, hmap1, ?_⟩⟩
      rw [hmeta1, hmi, Option.map_some, hshown]
  | none =>
      have hn := Cache.contents_eq_none_iff.mp hm
      have hmi : fs.metaOf i = none := by rw [← hmeta1]; exact hm
      have hshown := shown_of_metaOf_none hmi
      rw [putNothing_eq hn]
      refine ⟨_, _, rfl, hshown.symm,
        ⟨by dsimp only [FS.updateMeta, FS.setCache]; rw [hdisk1]; exact .refl _,
        fun p => ?_, ?_⟩⟩
      · dsimp only [FS.updateMeta, FS.setCache]
        rw [Cache.fileInodeMapping_updateContentMetadata]
        exact hmap1 p
      · rw [metaOf_updateMeta, if_pos rfl, hshown, FS.metaOf]
        dsimp only
        rw [Cache.getContentMetadata_setItem, if_pos rfl]
        rfl

/-- `lfs_getattr` at the start of another call. -/
lemma getattr {r : StatRes} (hN : fs.Named i) (hi : fs.disk.ino path = some i)
    (h : fs.lfsGetattr cfg path = some (fs', r)) : Timed path i (fs.shown i) fs fs' := by
  obtain ⟨fs1, st, hget, -, hT⟩ := hN.lfsGetattr cfg hi
  rw [hget] at h
  cases h
  exact hT

/-- The write on an open descriptor: through the cache it sets the time of modification. -/
lemma writeOn (hN : fs.Named i) (hi : fs.disk.ino path = some i) {fill : ℕ → FS → Option FS}
    (hfill : ∀ n t (fs1 fs2 : FS), Timed path i t fs fs1 → fill n fs1 = some fs2 →
      ∃ m, Timed path i (t.1, m) fs fs2) {buf : Mem} {size offset : ℕ} {fd : Fd} {directIo : Bool}
    {io : WriteIo} {r : ℤ}
    (h : fs.writeOn cfg fill path buf size offset fd directIo io = some (fs', r)) :
    Timed path i ((fs.shown i).1, if directIo then (fs.shown i).2 else io.now) fs fs' := by
  cases directIo with
  | true =>
      obtain ⟨⟨fs1, st⟩, h1, h⟩ := Option.bind_eq_some_iff.mp h
      cases h
      have hT := hN.getattr hi h1
      exact hT.keep (.refl _) (Disk.sameNames_pwrite _ _ _ _ _)
  | false =>
      rw [writeOn_eq] at h
      obtain ⟨⟨fs1, inode, n⟩, h1, h⟩ := Option.bind_eq_some_iff.mp h
      obtain ⟨fs2, h2, h⟩ := Option.bind_eq_some_iff.mp h
      obtain ⟨fs3, h3, heq⟩ := Option.map_eq_some_iff.mp h
      obtain ⟨⟨fs0, st⟩, h0, h1⟩ := Option.bind_eq_some_iff.mp h1
      rw [Option.some.injEq, Prod.mk.injEq, Prod.mk.injEq] at h1
      obtain ⟨rfl, rfl, -⟩ := h1
      have hT := hN.getattr hi h0
      obtain ⟨m, hT2⟩ := hfill _ _ _ _ hT h2
      obtain ⟨fs4, h4, h3⟩ := Option.bind_eq_some_iff.mp h3
      rw [Option.some.injEq] at h3
      have hT4 := hT2.keep (keepsMeta_writeLoop _ h4) (sameNames_writeLoop _ h4)
      rw [Prod.mk.injEq] at heq
      rw [← heq.1, ← h3, writeMeta]
      dsimp only
      rw [hT.inode]
      refine hT4.updateMeta (by rfl) ?_
      split_ifs
      · exact .inl rfl
      · exact .inr rfl

/-- `lfs_write` with a null handle. -/
lemma lfsWriteNull (hN : fs.Named i) (hi : fs.disk.ino path = some i) {buf : Mem} {size offset : ℕ}
    {io : WriteIo} {r : ℤ} (h : fs.lfsWriteNull cfg path buf size offset io = some (fs', r)) :
    Timed path i ((fs.shown i).1, io.now) fs fs' := by
  rw [FS.lfsWriteNull] at h
  split at h
  · rename_i hfd
    rw [Disk.openWrite, hi] at hfd
    cases hfd
  · refine hN.writeOn hi (fun n t fs1 fs2 hT h1 => ⟨t.2, ?_⟩) h
    cases h1
    exact hT

/-- **`lfs_write`** sets the time of modification, unless the handle bypasses the cache. -/
theorem lfsWrite (hN : fs.Named i) (hi : fs.disk.ino path = some i) {buf : Mem} {size offset : ℕ}
    {fi : Option FileInfo} {io fillIo : WriteIo} {r : ℤ}
    (h : fs.lfsWrite cfg path buf size offset fi io fillIo = some (fs', r)) :
    Timed path i ((fs.shown i).1, if fi.any FileInfo.directIo then (fs.shown i).2 else io.now)
      fs fs' := by
  cases fi with
  | none => exact hN.lfsWriteNull hi h
  | some fi =>
      refine hN.writeOn hi (fun n t fs1 fs2 hT h1 => ?_) h
      rw [FS.fillHole] at h1
      split_ifs at h1
      · obtain ⟨⟨fs3, r3⟩, h3, rfl⟩ := Option.map_eq_some_iff.mp h1
        have hT3 := (hT.named hN).lfsWriteNull ((hT.names.ino path).trans hi) h3
        rw [hT.shown] at hT3
        exact ⟨_, hT.trans hT3⟩
      · cases h1
        exact ⟨t.2, hT⟩

/-- The change of size keeps the time of access. -/
lemma changeSize (hN : fs.Named i) (hi : fs.disk.ino path = some i) (hT : Timed path i t fs fs')
    {n m : ℕ} {fi : Option FileInfo} {io fillIo : WriteIo}
    (h : fs'.changeSize cfg path n m fi io fillIo = some fs'') :
    ∃ m', Timed path i (t.1, m') fs fs'' := by
  rw [FS.changeSize] at h
  split_ifs at h
  · obtain ⟨⟨fs1, r⟩, h1, h⟩ := Option.bind_eq_some_iff.mp h
    have hT1 := (hT.named hN).lfsWrite ((hT.names.ino path).trans hi) h1
    rw [hT.shown] at hT1
    have hT2 := hT.trans hT1
    dsimp only at h
    split_ifs at h
    · cases h
      exact ⟨_, hT2.keep (.refl _) (sameNames_backingTruncate _ _ _ _)⟩
    · cases h
      exact ⟨_, hT2⟩
  · obtain ⟨⟨c, r⟩, h1, h⟩ := Option.bind_eq_some_iff.mp h
    cases h
    exact ⟨t.2, hT.keep (Cache.keepsMeta_truncateItem h1) (.refl _)⟩
  · cases h
    exact ⟨t.2, hT⟩

/-- **`lfs_truncate`** sets the time of modification. -/
theorem lfsTruncate (hN : fs.Named i) (hi : fs.disk.ino path = some i) {n : ℕ}
    {fi : Option FileInfo} {io fillIo : WriteIo} {r : ℤ}
    (h : fs.lfsTruncate cfg path n fi io fillIo = some (fs', r)) :
    Timed path i ((fs.shown i).1, io.now) fs fs' := by
  obtain ⟨⟨fs1, st⟩, h1, h⟩ := Option.bind_eq_some_iff.mp h
  obtain ⟨⟨fs2, inode⟩, h2, h⟩ := Option.bind_eq_some_iff.mp h
  have hT := hN.getattr hi h1
  -- the item is there
  have hcached : fs1.cache.hasContentCached (fs1.cache.getOriginalInode path) = true := by
    have hsome := hT.isSome
    rwa [FS.metaOf, Cache.getContentMetadata, Option.isSome_map, ← hT.inode] at hsome
  rw [truncateInode, if_pos hcached, hT.inode] at h2
  cases h2
  obtain ⟨fs3, h3, h⟩ := Option.bind_eq_some_iff.mp h
  rw [Option.some.injEq, Prod.mk.injEq] at h
  obtain ⟨m', hT3⟩ := hN.changeSize hi hT h3
  obtain ⟨m, hm, -⟩ := hT3.metaOf
  have hm' : fs3.cache.getContentMetadata (inodeStr i) = some m := hm
  rw [← h.1, truncateMeta, hm']
  dsimp only
  refine hT3.updateMeta (by rfl) ?_
  split_ifs
  · exact .inl rfl
  · exact .inr rfl

/-- **`lfs_fsync`** leaves the cached times. -/
theorem lfsFsync (hN : fs.Named i) (hi : fs.disk.ino path = some i) {isdatasync : Bool}
    {io : Engine.SyncIo} {r : ℤ} (h : fs.lfsFsync cfg path isdatasync io = some (fs', r)) :
    Timed path i (fs.shown i) fs fs' := by
  rw [lfsFsync_eq] at h
  obtain ⟨⟨fs1, st⟩, h1, h⟩ := Option.bind_eq_some_iff.mp h
  have hT := hN.getattr hi h1
  refine hT.keep ?_ (sameNames_fsyncRest h)
  rw [FS.fsyncRest] at h
  dsimp only at h
  split_ifs at h
  · obtain ⟨⟨c, d, res⟩, h2, h⟩ := Option.bind_eq_some_iff.mp h
    cases h
    exact Cache.keepsMeta_syncOwner h2
  · cases h
    exact .refl _
  · cases h
    exact .refl _

end Named

end FS

end LazyFS
