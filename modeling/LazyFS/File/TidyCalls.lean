import LazyFS.Model.Calls
import LazyFS.Rep.Tidy
import LazyFS.Support.Runs

/-!
Every call keeps the cache tidy, on any path and handle and whatever the backing calls return.

* `FS.Tidy`: the cache of a file system is tidy.
* `Tidy.lfsGetattr` to `Tidy.lfsRename`: the calls; each loop of a call has its own lemma.
* `FsOp`, `FsOp.run`: one call; `FS.tidy_of_run`: the states after any calls from a fresh cache.
-/

namespace LazyFS

open Engine

variable {cfg : Config}

namespace FS

variable {fs fs' : FS} {path : Path} {inode : String}

/-- The cache is tidy. -/
def Tidy (cfg : Config) (fs : FS) : Prop := ∃ tbl, fs.cache.Tidy cfg tbl

namespace Tidy

lemma of_cache (hT : fs.Tidy cfg) (h : fs'.cache = fs.cache) : fs'.Tidy cfg := by
  obtain ⟨tbl, hT⟩ := hT
  exact ⟨tbl, h ▸ hT⟩

lemma isKey (hT : fs.Tidy cfg) (path : Path) : IsKey (fs.cache.getOriginalInode path) := by
  obtain ⟨tbl, hT⟩ := hT
  exact hT.isKey path

lemma updateMeta (hT : fs.Tidy cfg) (inode : String) (m : Metadata) (values : List MetaField) :
    (fs.updateMeta inode m values).Tidy cfg := by
  obtain ⟨tbl, hT⟩ := hT
  exact ⟨tbl, hT.updateContentMetadata inode m values⟩

lemma insertInodeMapping (hT : fs.Tidy cfg) (path : Path) (i : ℕ) (increase : Bool) :
    (fs.setCache (fs.cache.insertInodeMapping path (inodeStr i) increase)).Tidy cfg := by
  obtain ⟨tbl, hT⟩ := hT
  exact ⟨tbl, hT.insertInodeMapping path i increase⟩

lemma removeCachedItem (h : OneBlock cfg) (hT : fs.Tidy cfg) (inode : String) (path : Path) :
    (fs.setCache (fs.cache.removeCachedItem cfg inode path false).1).Tidy cfg := by
  obtain ⟨tbl, hT⟩ := hT
  exact hT.removeCachedItem h inode path false

lemma putDataBlocks (h : OneBlock cfg) (hT : fs.Tidy cfg) (hkey : IsKey inode)
    {blocks : Map ℤ BlockPut} {op : AllocateOperationType} {c : Cache} {d : Disk} {r : Map ℤ Bool}
    (hput : fs.cache.putDataBlocks cfg fs.disk inode blocks op = some (c, d, r)) :
    (⟨c, d⟩ : FS).Tidy cfg := by
  obtain ⟨tbl, hT⟩ := hT
  exact hT.putDataBlocks h hkey hput

lemma putNothing (h : OneBlock cfg) (hT : fs.Tidy cfg) (hkey : IsKey inode)
    (hput : fs.putNothing cfg inode = some fs') : fs'.Tidy cfg := by
  obtain ⟨⟨c, d, r⟩, h1, hput⟩ := Option.bind_eq_some_iff.mp hput
  cases hput
  exact hT.putDataBlocks h hkey h1

/-! ### `lfs_getattr` -/

/-- **`lfs_getattr`**. -/
theorem lfsGetattr (h : OneBlock cfg) (hT : fs.Tidy cfg) {r : StatRes}
    (hget : fs.lfsGetattr cfg path = some (fs', r)) : fs'.Tidy cfg := by
  rw [FS.lfsGetattr] at hget
  split at hget
  · cases hget
    exact hT
  · cases hget
    exact hT
  · cases hget
    exact hT
  · rename_i i hi
    dsimp only at hget
    have hkey : IsKey (if fs.cache.getOriginalInode path = "" then inodeStr i
        else fs.cache.getOriginalInode path) := by
      split_ifs
      · exact .inr ⟨i, rfl⟩
      · exact hT.isKey path
    have hT1 : (if fs.cache.getOriginalInode path = "" then
        fs.setCache (fs.cache.insertInodeMapping path
          (if fs.cache.getOriginalInode path = "" then inodeStr i
            else fs.cache.getOriginalInode path) false) else fs).Tidy cfg := by
      split_ifs
      · exact hT.insertInodeMapping path i false
      · exact hT
    split at hget
    · obtain ⟨fs1, h1, hget⟩ := Option.bind_eq_some_iff.mp hget
      cases hget
      exact (hT1.putNothing h hkey h1).updateMeta _ _ _
    · cases hget
      exact hT1

/-! ### `lfs_write` -/

lemma putOrWrite (h : OneBlock cfg) (hT : fs.Tidy cfg) {w : WriteCtx}
    (hkey : IsKey w.inode) {cur : ℕ} {b : BlockPut} {cacheFull r : Bool}
    (hput : fs.putOrWrite cfg w cur b cacheFull = some (fs', r)) :
    fs'.Tidy cfg := by
  have hstore : ∀ (fs1 : FS) (stored : Bool), fs1.Tidy cfg →
      (if stored then some (fs1, true) else some (fs1.writeThrough cfg w cur b)) = some (fs', r) →
      fs'.Tidy cfg := by
    intro fs1 stored hT1 h1
    split_ifs at h1
    · cases h1
      exact hT1
    · cases h1
      exact hT1.of_cache rfl
  rw [FS.putOrWrite] at hput
  dsimp only at hput
  split_ifs at hput
  · exact hstore fs false hT hput
  · obtain ⟨⟨fs1, stored⟩, h1, hput⟩ := Option.bind_eq_some_iff.mp hput
    obtain ⟨⟨c, d, res⟩, h2, h1⟩ := Option.bind_eq_some_iff.mp h1
    rw [Option.some.injEq, Prod.mk.injEq] at h1
    obtain ⟨rfl, -⟩ := h1
    exact hstore ⟨c, d⟩ stored (hT.putDataBlocks h hkey h2) hput

/-- One turn of the block loop: every way out keeps the cache tidy. -/
lemma writeBlock (h : OneBlock cfg) (hT : fs.Tidy cfg) {w : WriteCtx}
    (hkey : IsKey w.inode) {cur : ℕ} {a b : ℤ} {r : Bool}
    (hwrite : FS.writeBlock cfg w cur fs a = some (fs', b, r)) : fs'.Tidy cfg := by
  rw [FS.writeBlock] at hwrite
  dsimp only at hwrite
  split_ifs at hwrite
  all_goals first
    | (cases hwrite; exact hT)
    | (obtain ⟨⟨fs1, w1⟩, h1, hwrite⟩ := Option.bind_eq_some_iff.mp hwrite
       cases hwrite
       exact hT.putOrWrite h hkey h1)

lemma writeLoop (h : OneBlock cfg) {w : WriteCtx} (hkey : IsKey w.inode) (l : List ℕ) :
    ∀ {fs : FS} {a : ℤ}, fs.Tidy cfg → FS.writeLoop cfg w l fs a = some fs' → fs'.Tidy cfg := by
  induction l with
  | nil =>
      intro fs a hT hloop
      cases hloop
      exact hT
  | cons cur l ih =>
      intro fs a hT hloop
      obtain ⟨⟨fs1, b, r⟩, h1, hloop⟩ := Option.bind_eq_some_iff.mp hloop
      have hT1 := hT.writeBlock h hkey h1
      dsimp only at hloop
      split_ifs at hloop
      · exact ih hT1 hloop
      · cases hloop
        exact hT1

lemma writeMeta (hT : fs.Tidy cfg) (w : WriteCtx) : (FS.writeMeta w fs).Tidy cfg :=
  hT.updateMeta _ _ _

/-- `lfs_write` on an open descriptor, when the call for the hole keeps the cache tidy. -/
lemma writeOn (h : OneBlock cfg) (hT : fs.Tidy cfg) {fill : ℕ → FS → Option FS}
    (hfill : ∀ n (fs fs' : FS), fs.Tidy cfg → fill n fs = some fs' → fs'.Tidy cfg) {buf : Mem}
    {size offset : ℕ} {fd : Fd} {directIo : Bool} {io : WriteIo} {r : ℤ}
    (hwrite : fs.writeOn cfg fill path buf size offset fd directIo io = some (fs', r)) :
    fs'.Tidy cfg := by
  cases directIo with
  | true =>
      obtain ⟨⟨fs1, st⟩, h1, hwrite⟩ := Option.bind_eq_some_iff.mp hwrite
      cases hwrite
      exact (hT.lfsGetattr h h1).of_cache rfl
  | false =>
      rw [writeOn_eq] at hwrite
      obtain ⟨⟨fs1, inode, n⟩, h1, hwrite⟩ := Option.bind_eq_some_iff.mp hwrite
      obtain ⟨fs2, h2, hwrite⟩ := Option.bind_eq_some_iff.mp hwrite
      obtain ⟨fs3, h3, heq⟩ := Option.map_eq_some_iff.mp hwrite
      obtain ⟨⟨fs0, st⟩, h0, h1⟩ := Option.bind_eq_some_iff.mp h1
      rw [Option.some.injEq, Prod.mk.injEq, Prod.mk.injEq] at h1
      obtain ⟨rfl, rfl, -⟩ := h1
      have hT1 := hT.lfsGetattr h h0
      obtain ⟨fs4, h4, h3⟩ := Option.bind_eq_some_iff.mp h3
      rw [Option.some.injEq] at h3
      rw [Prod.mk.injEq] at heq
      rw [← heq.1, ← h3]
      exact (Tidy.writeLoop h (hT1.isKey path) _ (hfill _ _ _ hT1 h2) h4).writeMeta _

lemma lfsWriteNull (h : OneBlock cfg) (hT : fs.Tidy cfg) {buf : Mem}
    {size offset : ℕ} {io : WriteIo} {r : ℤ}
    (hwrite : fs.lfsWriteNull cfg path buf size offset io = some (fs', r)) : fs'.Tidy cfg := by
  rw [FS.lfsWriteNull] at hwrite
  split at hwrite
  · cases hwrite
    exact hT
  · refine hT.writeOn h (fun n fs1 fs2 hT1 h1 => ?_) hwrite
    cases h1
    exact hT1

lemma fillHole (h : OneBlock cfg) (hT : fs.Tidy cfg) {offset n : ℕ} {io : WriteIo}
    (hfill : FS.fillHole cfg path offset io n fs = some fs') : fs'.Tidy cfg := by
  rw [FS.fillHole] at hfill
  split_ifs at hfill
  · obtain ⟨⟨fs1, r⟩, h1, rfl⟩ := Option.map_eq_some_iff.mp hfill
    exact hT.lfsWriteNull h h1
  · cases hfill
    exact hT

/-- **`lfs_write`**. -/
theorem lfsWrite (h : OneBlock cfg) (hT : fs.Tidy cfg) {buf : Mem} {size offset : ℕ}
    {fi : Option FileInfo} {io fillIo : WriteIo} {r : ℤ}
    (hwrite : fs.lfsWrite cfg path buf size offset fi io fillIo = some (fs', r)) :
    fs'.Tidy cfg := by
  unfold FS.lfsWrite at hwrite
  split at hwrite
  · exact hT.lfsWriteNull h hwrite
  · exact hT.writeOn h (fun n fs1 fs2 hT1 h1 => hT1.fillHole h h1) hwrite

/-! ### `lfs_read` -/

lemma copyCached {rc : ReadCtx} {cur : ℕ} {a b : ℤ} {s s' : ReadState} (hT : s.fs.Tidy cfg)
    (hcopy : FS.copyCached cfg rc cur a b s = some s') : s'.fs.Tidy cfg := by
  rw [FS.copyCached] at hcopy
  obtain ⟨⟨c, found, buffers⟩, h1, hcopy⟩ := Option.bind_eq_some_iff.mp hcopy
  obtain ⟨tbl, hT⟩ := hT
  have hT1 : (s.fs.setCache c).Tidy cfg := ⟨tbl, hT.getDataBlocks h1⟩
  dsimp only at hcopy
  split at hcopy
  · split_ifs at hcopy
    all_goals
      cases hcopy
      exact hT1
  · cases hcopy
    exact hT1

lemma readBlock {rc : ReadCtx} {cur : ℕ} {s s' : ReadState} {r : Bool} (hT : s.fs.Tidy cfg)
    (hread : FS.readBlock cfg rc cur s = some (s', r)) : s'.fs.Tidy cfg := by
  rw [FS.readBlock] at hread
  dsimp only at hread
  split_ifs at hread
  all_goals first
    | (cases hread; exact hT)
    | (obtain ⟨s1, h1, hread⟩ := Option.bind_eq_some_iff.mp hread
       cases hread
       refine copyCached ?_ h1
       exact hT)

lemma readLoop {rc : ReadCtx} (l : List ℕ) : ∀ {s s' : ReadState}, s.fs.Tidy cfg →
    FS.readLoop cfg rc l s = some s' → s'.fs.Tidy cfg := by
  induction l with
  | nil =>
      intro s s' hT hloop
      cases hloop
      exact hT
  | cons cur l ih =>
      intro s s' hT hloop
      obtain ⟨⟨s1, r⟩, h1, hloop⟩ := Option.bind_eq_some_iff.mp hloop
      have hT1 := readBlock hT h1
      dsimp only at hloop
      split_ifs at hloop
      · exact ih hT1 hloop
      · cases hloop
        exact hT1

lemma readMeta (h : OneBlock cfg) (hT : fs.Tidy cfg) (hkey : IsKey inode) {now : Timespec} {n : ℕ}
    (hmeta : fs.readMeta cfg path inode now = some (fs', n)) : fs'.Tidy cfg := by
  rw [FS.readMeta] at hmeta
  split at hmeta
  · cases hmeta
    exact hT
  · obtain ⟨fs1, h1, hmeta⟩ := Option.bind_eq_some_iff.mp hmeta
    cases hmeta
    exact (hT.putNothing h hkey h1).updateMeta _ _ _

/-- **`lfs_read`**. -/
theorem lfsRead (h : OneBlock cfg) (hT : fs.Tidy cfg) {buf : Mem} {size offset : ℕ}
    {fi : Option FileInfo} {io : ReadIo} {r : ℤ × Mem}
    (hread : fs.lfsRead cfg path buf size offset fi io = some (fs', r)) : fs'.Tidy cfg := by
  rw [FS.lfsRead] at hread
  split at hread
  · cases hread
    exact hT
  · obtain ⟨⟨fs1, st⟩, h1, hread⟩ := Option.bind_eq_some_iff.mp hread
    have hT1 := hT.lfsGetattr h h1
    obtain ⟨⟨fs2, n⟩, h2, hread⟩ := Option.bind_eq_some_iff.mp hread
    have hT2 := hT1.readMeta h (hT1.isKey path) h2
    dsimp only at hread
    split_ifs at hread
    · cases hread
      exact hT2
    all_goals
      obtain ⟨s, h3, hread⟩ := Option.bind_eq_some_iff.mp hread
      have hT3 : s.fs.Tidy cfg := Tidy.readLoop _ (show FS.Tidy cfg _ from hT2) h3
      rw [Option.some.injEq, Prod.mk.injEq] at hread
      rw [← hread.1]
      split_ifs
      · exact hT3
      · exact hT3

/-! ### `lfs_truncate` and `lfs_fsync` -/

lemma truncateInode (h : OneBlock cfg) (hT : fs.Tidy cfg) {fi : Option FileInfo} {r : Option String}
    (hinode : fs.truncateInode cfg path fi = some (fs', r)) : fs'.Tidy cfg := by
  rw [FS.truncateInode] at hinode
  dsimp only at hinode
  split_ifs at hinode
  · cases hinode
    exact hT
  · obtain ⟨⟨fs1, st⟩, h1, hinode⟩ := Option.bind_eq_some_iff.mp hinode
    have hT0 : (fs.backingTruncate path fi 0).Tidy cfg := hT.of_cache rfl
    have hT1 := hT0.lfsGetattr h h1
    dsimp only at hinode
    split at hinode
    · cases hinode
      exact hT1
    · cases hinode
      exact hT1

/-- The item to cut is named by the path, so that none is cut. -/
lemma changeSize (h : OneBlock cfg) (hT : fs.Tidy cfg) {n m : ℕ} {fi : Option FileInfo}
    {io fillIo : WriteIo} (hsize : fs.changeSize cfg path n m fi io fillIo = some fs') :
    fs'.Tidy cfg := by
  rw [FS.changeSize] at hsize
  split_ifs at hsize
  · obtain ⟨⟨fs1, r⟩, h1, hsize⟩ := Option.bind_eq_some_iff.mp hsize
    have hT1 := hT.lfsWrite h h1
    dsimp only at hsize
    split_ifs at hsize
    · cases hsize
      exact hT1.of_cache rfl
    · cases hsize
      exact hT1
  · obtain ⟨tbl, hC⟩ := hT
    rw [hC.truncateItem_path] at hsize
    cases hsize
    exact ⟨tbl, hC⟩
  · cases hsize
    exact hT

lemma truncateMeta (hT : fs.Tidy cfg) (inode : String) (n : ℕ) (now : Timespec) :
    (fs.truncateMeta inode n now).Tidy cfg := by
  rw [FS.truncateMeta]
  split
  · exact hT
  · exact hT.updateMeta _ _ _

/-- **`lfs_truncate`**. -/
theorem lfsTruncate (h : OneBlock cfg) (hT : fs.Tidy cfg) {n : ℕ} {fi : Option FileInfo}
    {io fillIo : WriteIo} {r : ℤ}
    (htrunc : fs.lfsTruncate cfg path n fi io fillIo = some (fs', r)) :
    fs'.Tidy cfg := by
  rw [FS.lfsTruncate] at htrunc
  obtain ⟨⟨fs1, st⟩, h1, htrunc⟩ := Option.bind_eq_some_iff.mp htrunc
  obtain ⟨⟨fs2, inode⟩, h2, htrunc⟩ := Option.bind_eq_some_iff.mp htrunc
  have hT2 := (hT.lfsGetattr h h1).truncateInode h h2
  cases inode with
  | none =>
      cases htrunc
      exact hT2
  | some inode =>
      obtain ⟨fs3, h3, htrunc⟩ := Option.bind_eq_some_iff.mp htrunc
      rw [Option.some.injEq, Prod.mk.injEq] at htrunc
      rw [← htrunc.1]
      exact (hT2.changeSize h h3).truncateMeta _ _ _

/-- **`lfs_fsync`**. -/
theorem lfsFsync (h : OneBlock cfg) (hT : fs.Tidy cfg) {isdatasync : Bool} {io : SyncIo} {r : ℤ}
    (hsync : fs.lfsFsync cfg path isdatasync io = some (fs', r)) : fs'.Tidy cfg := by
  rw [lfsFsync_eq] at hsync
  obtain ⟨⟨fs1, st⟩, h1, hsync⟩ := Option.bind_eq_some_iff.mp hsync
  obtain ⟨tbl, hC⟩ := hT.lfsGetattr h h1
  rw [FS.fsyncRest] at hsync
  dsimp only at hsync
  split_ifs at hsync
  · obtain ⟨⟨c, d, res⟩, h2, hsync⟩ := Option.bind_eq_some_iff.mp hsync
    cases hsync
    exact ⟨tbl, hC.syncOwner h2⟩
  · cases hsync
    exact ⟨tbl, hC⟩
  · cases hsync
    exact ⟨tbl, hC⟩

/-! ### Names -/

/-- **`lfs_create`**. -/
theorem lfsCreate (h : OneBlock cfg) (hT : fs.Tidy cfg) {flags : Disk.OpenFlags} {newIno : ℕ}
    {now : Timespec} {r : ℤ × Option Fd}
    (hcreate : fs.lfsCreate cfg path flags newIno now = some (fs', r)) : fs'.Tidy cfg := by
  rw [FS.lfsCreate] at hcreate
  split at hcreate
  · cases hcreate
    exact hT
  · rename_i d fd hd
    obtain ⟨⟨fs1, st⟩, h1, hcreate⟩ := Option.bind_eq_some_iff.mp hcreate
    have hT0 : ({ fs with disk := d } : FS).Tidy cfg := hT.of_cache rfl
    have hT1 := hT0.lfsGetattr h h1
    dsimp only at hcreate
    split at hcreate
    · rename_i st
      by_cases hnew : (!fs1.cache.hasContentCached (inodeStr st.stIno)) = true
      · rw [if_pos hnew] at hcreate
        obtain ⟨fs2, h2, hcreate⟩ := Option.bind_eq_some_iff.mp hcreate
        cases hcreate
        exact (hT1.putNothing h (.inr ⟨_, rfl⟩) h2).updateMeta _ _ _
      · rw [if_neg hnew] at hcreate
        cases hcreate
        exact hT1.updateMeta _ _ _
    · cases hcreate
      exact hT1

/-- **`lfs_link`**. -/
theorem lfsLink (hT : fs.Tidy cfg) (source dest : Path) :
    (fs.lfsLink cfg source dest).1.Tidy cfg := by
  rw [FS.lfsLink]
  split
  · exact hT
  · rename_i d hd
    have hT1 : ({ fs with disk := d } : FS).Tidy cfg := hT.of_cache rfl
    dsimp only
    split_ifs with hmapped
    · rcases hT1.isKey source with hkey | ⟨i, hkey⟩
      · exact absurd hkey hmapped
      · rw [hkey]
        exact hT1.insertInodeMapping dest i true
    · exact hT1

/-- **`lfs_unlink`**. -/
theorem lfsUnlink (h : OneBlock cfg) (hT : fs.Tidy cfg) (path : Path) :
    (fs.lfsUnlink cfg path).1.Tidy cfg := by
  rw [FS.lfsUnlink]
  dsimp only
  by_cases hmapped : fs.cache.getOriginalInode path = ""
  · -- the path has no inode: the cache is cleaned after the call on the backing directory
    rw [if_neg (not_not.mpr hmapped)]
    split
    · exact hT
    · rename_i d hd
      have hT1 : ({ fs with disk := d } : FS).Tidy cfg := hT.of_cache rfl
      rw [if_pos hmapped]
      exact hT1.removeCachedItem h _ path
  · rw [if_pos hmapped]
    have hT1 := hT.removeCachedItem h (fs.cache.getOriginalInode path) path
    split
    · exact hT1
    · rename_i d hd
      rw [if_neg hmapped]
      exact hT1.of_cache rfl

/-- **`lfs_rename`**. -/
theorem lfsRename (h : OneBlock cfg) (hT : fs.Tidy cfg) (resolve : Path → Resolved)
    (source dest : Path) : (fs.lfsRename cfg resolve source dest).1.Tidy cfg := by
  have hfold : ∀ (l : List Path) (c : Cache), (∃ tbl, c.Tidy cfg tbl) →
      ∃ tbl, (l.foldl (fun c it => c.renameItem cfg it (dest ++ it.drop source.length)) c).Tidy
        cfg tbl := by
    intro l
    induction l with
    | nil => exact fun c hC => hC
    | cons it l ih =>
        rintro c ⟨tbl, hC⟩
        exact ih _ (hC.renameItem h _ _)
  have hT1 : (if fs.cache.getOriginalInode source = "" then
      fs.lfsRecursiveRename cfg resolve source dest
      else fs.setCache (fs.cache.renameItem cfg source dest)).Tidy cfg := by
    split_ifs
    · unfold FS.lfsRecursiveRename
      dsimp only
      split_ifs
      · exact hT
      · exact hfold _ _ hT
    · obtain ⟨tbl, hC⟩ := hT
      exact hC.renameItem h source dest
  unfold FS.lfsRename
  dsimp only
  split
  · exact hT1
  · exact hT1.of_cache rfl

end Tidy

end FS

/-- One call. -/
inductive FsOp where
  | create (path : Path) (flags : Disk.OpenFlags) (newIno : ℕ) (now : Timespec)
  | getattr (path : Path)
  | write (path : Path) (buf : Mem) (size offset : ℕ) (fi : Option FileInfo) (io fillIo : WriteIo)
  | read (path : Path) (buf : Mem) (size offset : ℕ) (fi : Option FileInfo) (io : ReadIo)
  | truncate (path : Path) (size : ℕ) (fi : Option FileInfo) (io fillIo : WriteIo)
  | fsync (path : Path) (isdatasync : Bool) (io : SyncIo)
  | link (source dest : Path)
  | unlink (path : Path)
  | rename (resolve : Path → Resolved) (source dest : Path)

namespace FsOp

/-- The file system after a call. -/
def run (cfg : Config) (fs : FS) : FsOp → Option FS
  | create path flags newIno now => (fs.lfsCreate cfg path flags newIno now).map Prod.fst
  | getattr path => (fs.lfsGetattr cfg path).map Prod.fst
  | write path buf size offset fi io fillIo =>
      (fs.lfsWrite cfg path buf size offset fi io fillIo).map Prod.fst
  | read path buf size offset fi io => (fs.lfsRead cfg path buf size offset fi io).map Prod.fst
  | truncate path size fi io fillIo => (fs.lfsTruncate cfg path size fi io fillIo).map Prod.fst
  | fsync path isdatasync io => (fs.lfsFsync cfg path isdatasync io).map Prod.fst
  | link source dest => some (fs.lfsLink cfg source dest).1
  | unlink path => some (fs.lfsUnlink cfg path).1
  | rename resolve source dest => some (fs.lfsRename cfg resolve source dest).1

/-- Every call keeps the cache tidy. -/
theorem run_tidy (h : OneBlock cfg) (op : FsOp) {fs fs' : FS} (hT : fs.Tidy cfg)
    (hrun : op.run cfg fs = some fs') : fs'.Tidy cfg := by
  cases op with
  | create path flags newIno now =>
      obtain ⟨⟨fs1, r⟩, h1, rfl⟩ := Option.map_eq_some_iff.mp hrun
      exact hT.lfsCreate h h1
  | getattr path =>
      obtain ⟨⟨fs1, r⟩, h1, rfl⟩ := Option.map_eq_some_iff.mp hrun
      exact hT.lfsGetattr h h1
  | write path buf size offset fi io fillIo =>
      obtain ⟨⟨fs1, r⟩, h1, rfl⟩ := Option.map_eq_some_iff.mp hrun
      exact hT.lfsWrite h h1
  | read path buf size offset fi io =>
      obtain ⟨⟨fs1, r⟩, h1, rfl⟩ := Option.map_eq_some_iff.mp hrun
      exact hT.lfsRead h h1
  | truncate path size fi io fillIo =>
      obtain ⟨⟨fs1, r⟩, h1, rfl⟩ := Option.map_eq_some_iff.mp hrun
      exact hT.lfsTruncate h h1
  | fsync path isdatasync io =>
      obtain ⟨⟨fs1, r⟩, h1, rfl⟩ := Option.map_eq_some_iff.mp hrun
      exact hT.lfsFsync h h1
  | link source dest =>
      cases hrun
      exact hT.lfsLink source dest
  | unlink path =>
      cases hrun
      exact hT.lfsUnlink h path
  | rename resolve source dest =>
      cases hrun
      exact hT.lfsRename h resolve source dest

end FsOp

/-- **The cache stays tidy** in every run of calls from a fresh cache, over any backing
directory. -/
theorem FS.tidy_of_run (h : OneBlock cfg) (d : Disk) (ops : List FsOp) {fs : FS}
    (hrun : Runs.run (FsOp.run cfg) ⟨.new cfg, d⟩ ops = some fs) : fs.Tidy cfg := by
  have hreach : Runs.Reach (FsOp.run cfg) (fun _ _ => True) (⟨.new cfg, d⟩ = ·) fs :=
    (Runs.Reach.init rfl).of_run (Runs.guarded_of_forall fun _ _ => trivial) hrun
  refine hreach.invariant (fun s hs => ?_) fun s op s' hT _ hstep => op.run_tidy h hT hstep
  subst hs
  exact ⟨_, Cache.Tidy.new h⟩

end LazyFS
