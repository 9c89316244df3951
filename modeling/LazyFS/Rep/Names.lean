import LazyFS.Model.Calls

/-!
No call on a file changes a name, whatever the configuration and the state of the cache.

* `Engine.sameNames_allocateBlocks`, `Engine.sameNames_syncPages`: what the engine does to the
  backing file system; `Cache.sameNames_putDataBlocks`, `Cache.sameNames_syncOwner`: what the cache
  does.
* `FS.sameNames_getattr`, `FS.sameNames_writeRest`, `FS.sameNames_fsyncRest`: the same for the
  calls.
-/

namespace LazyFS

variable {cfg : Config}

namespace Page

lemma sameNames_syncBlocks (pg : Page) (fd : Option Fd) (l : List (ℤ × ℤ)) :
    ∀ (a b : ℤ) (d : Disk), Disk.SameNames d (syncBlocks cfg pg fd l (a, b, d)).2.2 := by
  induction l with
  | nil => exact fun a b d => .refl d
  | cons x l ih =>
      intro a b d
      obtain ⟨blk, readable⟩ := x
      rw [syncBlocks]
      by_cases hb : pg.containsBlock blk
      · rw [if_pos hb]
        exact (Disk.sameNames_pwrite d fd _ _ _).trans (ih _ _ _)
      · rw [if_neg hb]
        exact ih _ _ _

lemma sameNames_syncData (pg : Page) (d : Disk) : Disk.SameNames d (pg.syncData cfg d).2 :=
  sameNames_syncBlocks pg _ _ _ _ d

end Page

namespace Engine

variable {e e' : Engine} {d d' : Disk} {cid : String}

lemma sameNames_evictPage (e : Engine) (d : Disk)
    (p : ℕ) : Disk.SameNames d (e.evictPage cfg d p).2 := by
  rw [evictPage]
  dsimp only
  split_ifs
  · exact Page.sameNames_syncData _ d
  · exact .refl d

lemma sameNames_getNextFreePage {r : Option ℕ}
    (h : e.getNextFreePage cfg d cid = some (e', d', r)) :
    Disk.SameNames d d' := by
  rw [getNextFreePage] at h
  obtain ⟨room, -, h⟩ := Option.bind_eq_some_iff.mp h
  cases room with
  | some p =>
      cases h
      exact .refl d
  | none =>
      dsimp only at h
      split at h
      · cases h
        exact .refl d
      · split_ifs at h
        · split at h
          · cases h
          · cases h
            exact sameNames_evictPage e d _
        · cases h
          exact .refl d

lemma sameNames_allocateFree {blk : ℤ} {b : BlockData} {op : AllocateOperationType} {r : Option ℕ}
    (h : e.allocateFree cfg d cid blk b op = some (e', d', r)) : Disk.SameNames d d' := by
  rw [allocateFree] at h
  obtain ⟨⟨e1, d1, next⟩, h1, h⟩ := Option.bind_eq_some_iff.mp h
  have hd := sameNames_getNextFreePage h1
  cases next with
  | none =>
      cases h
      exact hd
  | some p =>
      dsimp only at h
      split_ifs at h
      · obtain ⟨e2, -, h⟩ := Option.bind_eq_some_iff.mp h
        cases h
        exact hd
      · cases h
        exact hd

lemma sameNames_allocateBlock {blk : ℤ} {b : BlockData} {op : AllocateOperationType} {r : Option ℕ}
    (h : e.allocateBlock cfg d cid blk b op = some (e', d', r)) : Disk.SameNames d d' := by
  rw [allocateBlock] at h
  split at h
  · split_ifs at h
    · obtain ⟨e1, -, h⟩ := Option.map_eq_some_iff.mp h
      cases h
      exact .refl d
    · exact sameNames_allocateFree h
  · exact sameNames_allocateFree h

/-- `allocate_blocks` may evict, which writes bytes only. -/
lemma sameNames_allocateBlocks {m : Map ℤ BlockData} {op : AllocateOperationType}
    {r : Map ℤ (Option ℕ)} (h : e.allocateBlocks cfg d cid m op = some (e', d', r)) :
    Disk.SameNames d d' := by
  have hloop : ∀ (l : List (ℤ × BlockData)) (e : Engine) (d : Disk) (res : Map ℤ (Option ℕ)),
      allocateLoop cfg cid op l e d res = some (e', d', r) → Disk.SameNames d d' := by
    intro l
    induction l with
    | nil =>
        intro e d res h
        cases h
        exact .refl _
    | cons x l ih =>
        intro e d res h
        obtain ⟨⟨e1, d1, p⟩, h1, h⟩ := Option.bind_eq_some_iff.mp h
        exact (sameNames_allocateBlock h1).trans (ih _ _ _ h)
  exact hloop _ _ _ _ h

lemma sameNames_flushStreaks {fd : Option Fd} {io : SyncIo} (l : List Streak) :
    ∀ {k : ℕ} {m m' : Map ℤ OrderedEntry} {d : Disk},
      e.flushStreaks cfg fd io l k m d = some (m', d') → Disk.SameNames d d' := by
  induction l with
  | nil =>
      intro k m m' d h
      cases h
      exact .refl _
  | cons s l ih =>
      intro k m m' d h
      obtain ⟨buffers, -, h⟩ := Option.bind_eq_some_iff.mp h
      obtain ⟨m1, -, h⟩ := Option.bind_eq_some_iff.mp h
      exact (Disk.sameNames_pwrite d fd _ _ _).trans (ih h)

/-- `sync_pages` writes and truncates. -/
lemma sameNames_syncPages {size : ℕ} {path : Path} {io : SyncIo}
    (h : e.syncPages cfg d cid size path io = some (e', d')) : Disk.SameNames d d' := by
  rw [syncPages] at h
  dsimp only at h
  generalize (if io.openOk then d.openWrite path else none) = fd at h
  split_ifs at h
  · obtain ⟨it, -, h⟩ := Option.bind_eq_some_iff.mp h
    obtain ⟨⟨m, d1⟩, h1, h⟩ := Option.bind_eq_some_iff.mp h
    cases h
    exact (sameNames_flushStreaks _ h1).trans (Disk.sameNames_ftruncate d1 _ _ _)
  · cases h
    exact Disk.sameNames_ftruncate d _ _ _

end Engine

namespace Cache

variable {c c' : Cache} {d d' : Disk} {cid : String}

lemma sameNames_putDataBlocks {blocks : Map ℤ BlockPut} {op : AllocateOperationType}
    {r : Map ℤ Bool} (h : c.putDataBlocks cfg d cid blocks op = some (c', d', r)) :
    Disk.SameNames d d' := by
  rw [putDataBlocks] at h
  obtain ⟨it, -, h⟩ := Option.bind_eq_some_iff.mp h
  obtain ⟨⟨e1, d1, al⟩, h1, h⟩ := Option.bind_eq_some_iff.mp h
  obtain ⟨⟨it1, e2, res, any⟩, -, h⟩ := Option.bind_eq_some_iff.mp h
  cases h
  exact Engine.sameNames_allocateBlocks h1

lemma sameNames_syncOwner {onlySyncData : Bool} {path : Path} {io : Engine.SyncIo} {r : ℤ}
    (h : c.syncOwner cfg d cid onlySyncData path io = some (c', d', r)) : Disk.SameNames d d' := by
  rw [syncOwner] at h
  split at h
  · cases h
    exact .refl d
  · obtain ⟨⟨e1, d1⟩, h1, h⟩ := Option.bind_eq_some_iff.mp h
    cases h
    exact Engine.sameNames_syncPages h1

end Cache

namespace FS

variable {fs fs' : FS} {path : Path} {inode : String}

lemma sameNames_putNothing (h : fs.putNothing cfg inode = some fs') :
    Disk.SameNames fs.disk fs'.disk := by
  obtain ⟨⟨c, d, r⟩, h1, h⟩ := Option.bind_eq_some_iff.mp h
  cases h
  exact Cache.sameNames_putDataBlocks h1

/-- `lfs_getattr`. -/
lemma sameNames_getattr {r : StatRes} (h : fs.lfsGetattr cfg path = some (fs', r)) :
    Disk.SameNames fs.disk fs'.disk := by
  rw [lfsGetattr] at h
  split at h
  · cases h
    exact .refl _
  · cases h
    exact .refl _
  · cases h
    exact .refl _
  · dsimp only at h
    split at h
    · obtain ⟨fs1, h1, h⟩ := Option.bind_eq_some_iff.mp h
      cases h
      have hd := sameNames_putNothing h1
      split_ifs at hd
      · exact hd
      · exact hd
    · cases h
      split_ifs
      · exact .refl _
      · exact .refl _

lemma sameNames_putOrWrite {w : WriteCtx} {cur : ℕ} {b : BlockPut} {cacheFull r : Bool}
    (h : fs.putOrWrite cfg w cur b cacheFull = some (fs', r)) :
    Disk.SameNames fs.disk fs'.disk := by
  have hstore : ∀ (fs1 : FS) (stored : Bool), Disk.SameNames fs.disk fs1.disk →
      (if stored then some (fs1, true) else some (fs1.writeThrough cfg w cur b)) = some (fs', r) →
      Disk.SameNames fs.disk fs'.disk := by
    intro fs1 stored hd h
    split_ifs at h
    · cases h
      exact hd
    · cases h
      exact hd.trans (Disk.sameNames_pwrite _ _ _ _ _)
  rw [putOrWrite] at h
  dsimp only at h
  split_ifs at h
  · exact hstore fs false (.refl _) h
  · obtain ⟨⟨fs1, stored⟩, h1, h⟩ := Option.bind_eq_some_iff.mp h
    obtain ⟨⟨c, d, res⟩, h2, h1⟩ := Option.bind_eq_some_iff.mp h1
    rw [Option.some.injEq, Prod.mk.injEq] at h1
    obtain ⟨rfl, -⟩ := h1
    exact hstore ⟨c, d⟩ stored (Cache.sameNames_putDataBlocks h2) h

lemma sameNames_writeBlock {w : WriteCtx} {cur : ℕ} {a b : ℤ} {r : Bool}
    (h : writeBlock cfg w cur fs a = some (fs', b, r)) : Disk.SameNames fs.disk fs'.disk := by
  rw [writeBlock] at h
  dsimp only at h
  split_ifs at h
  · obtain ⟨⟨fs1, w1⟩, h1, h⟩ := Option.bind_eq_some_iff.mp h
    cases h
    exact sameNames_putOrWrite h1
  all_goals first
    | (cases h; exact .refl _)
    | (obtain ⟨⟨fs1, w1⟩, h1, h⟩ := Option.bind_eq_some_iff.mp h
       cases h
       exact sameNames_putOrWrite h1)

lemma sameNames_writeLoop {w : WriteCtx} (l : List ℕ) : ∀ {fs : FS} {a : ℤ},
    writeLoop cfg w l fs a = some fs' → Disk.SameNames fs.disk fs'.disk := by
  induction l with
  | nil =>
      intro fs a h
      cases h
      exact .refl _
  | cons cur l ih =>
      intro fs a h
      obtain ⟨⟨fs1, b, r⟩, h1, h⟩ := Option.bind_eq_some_iff.mp h
      have hd := sameNames_writeBlock h1
      dsimp only at h
      split_ifs at h
      · exact hd.trans (ih h)
      · cases h
        exact hd

lemma sameNames_writeStart {r : String × ℕ} (h : fs.writeStart cfg path = some (fs', r)) :
    Disk.SameNames fs.disk fs'.disk := by
  obtain ⟨⟨fs1, st⟩, h1, h⟩ := Option.bind_eq_some_iff.mp h
  cases h
  exact sameNames_getattr h1

/-- The blocks and the metadata of `lfs_write`. -/
lemma sameNames_writeRest {fileSizeBefore size offset : ℕ} {buf : Mem} {fd : Fd} {io : WriteIo}
    (h : fs.writeRest cfg path inode fileSizeBefore buf size offset fd io = some fs') :
    Disk.SameNames fs.disk fs'.disk := by
  obtain ⟨fs1, h1, h⟩ := Option.bind_eq_some_iff.mp h
  rw [Option.some.injEq] at h
  have hd := sameNames_writeLoop _ h1
  rw [← h]
  exact hd

/-- `lfs_fsync` after `lfs_getattr`. -/
lemma sameNames_fsyncRest {isdatasync : Bool} {io : Engine.SyncIo} {r : ℤ}
    (h : fs.fsyncRest cfg path isdatasync io = some (fs', r)) :
    Disk.SameNames fs.disk fs'.disk := by
  rw [fsyncRest] at h
  dsimp only at h
  split_ifs at h
  · obtain ⟨⟨c, d, res⟩, h1, h⟩ := Option.bind_eq_some_iff.mp h
    cases h
    exact Cache.sameNames_syncOwner h1
  · cases h
    exact .refl _
  · cases h
    exact .refl _

lemma sameNames_backingTruncate (fs : FS) (path : Path) (fi : Option FileInfo) (n : ℕ) :
    Disk.SameNames fs.disk (fs.backingTruncate path fi n).disk := Disk.sameNames_ftruncate _ _ _ _

end FS

end LazyFS
