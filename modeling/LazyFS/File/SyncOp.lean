import LazyFS.File.Flush
import LazyFS.File.WriteOp

/-!
`lfs_fsync` on the view of a file.

* `FileView.Flushed`, `FileView.Durable`: the dirty blocks may have been written to the backing
  file, and were written; `FileView.cleaned` is the view after a write-back.
* `Sound.syncOwner`, `Sound.lfsFsync`: what a write-back does, whatever becomes of its calls, and
  what it does when all of them succeed in full.
* `Holds.synced`, `Bounded.cleaned`, `Clean.cleaned`, `Tight.synced`: the contents stay, and
  `Holds.durable`: after a write-back that succeeded the backing file has them.
-/

namespace LazyFS

open Engine

variable {cfg : Config}

namespace FileView

/-- The dirty blocks of a file may have been written to the backing file. -/
structure Flushed (B : ℕ) (f : FileView) (disk' : List UInt8) : Prop where
  kept : ∀ pos, pos < f.disk.length →
    (∀ v, f.blocks ((pos / B : ℕ) : ℤ) = some v → v.dirty = false) → disk'[pos]? = f.disk[pos]?
  length_ge : f.disk.length ≤ disk'.length
  length_le : ∀ N : ℕ, f.disk.length ≤ N → (∀ (b : ℤ) (v : BlockView), f.blocks b = some v →
    v.dirty = true → b * B + v.readableTo + 1 ≤ N) → disk'.length ≤ N

/-- The dirty blocks of a file are in the backing file. -/
def Durable (B : ℕ) (f : FileView) (disk' : List UInt8) : Prop :=
  ∀ (n : ℕ) (v : BlockView) (j : ℕ), f.blocks (n : ℤ) = some v → v.dirty = true →
    (j : ℤ) ≤ v.readableTo → disk'[n * B + j]? = v.bytes[j]?

/-- The view after a write-back. -/
def cleaned (f : FileView) (disk' : List UInt8) : FileView :=
  ⟨fun b => (f.blocks b).map fun v => { v with dirty := false }, disk'⟩

end FileView

/-! ### The dirty blocks -/

namespace Cache

variable {c : Cache} {tbl : PageTable} {o : String} {b : ℤ}

/-- A dirty block as the engine lists it. -/
lemma Good.mem_dirtyBlocks (hG : c.Good cfg tbl) {m : Map ℤ OrderedEntry}
    (hm : c.engine.ownerOrderedPagesMapping.lookup o = some m) {en : OrderedEntry} :
    (b, en) ∈ c.engine.dirtyBlocks m ↔
      m.lookup b = some en ∧ ∃ v, c.view cfg o b = some v ∧ v.dirty = true := by
  rw [(hG.exact.separate hm).mem_dirtyBlocks]
  refine and_congr_right fun hen => ?_
  have he : c.engine.entry o b = some en := by rw [entry, hm, Option.bind_some, hen]
  obtain ⟨-, info, -, -, -, hv⟩ := hG.view_of_tbl (hG.exact.of_entry o b en he).1
  rw [hv]
  constructor
  · exact fun h => ⟨_, rfl, h⟩
  · rintro ⟨v, hv', hd⟩
    rw [← Option.some.inj hv'] at hd
    exact hd

/-- The page of an entry holds the block that is seen. -/
lemma Good.page_of_entry (hG : c.Good cfg tbl) {m : Map ℤ OrderedEntry}
    (hm : c.engine.ownerOrderedPagesMapping.lookup o = some m) {en : OrderedEntry}
    (hen : m.lookup b = some en) {v : BlockView} (hv : c.view cfg o b = some v) :
    en.offsets = slot cfg ∧ v.bytes = (c.engine.searchIndex en.pageId).data.read 0 cfg.ioBlockSize ∧
      (c.engine.searchIndex en.pageId).allocatedBlockIds.getReadableTo b = some v.readableTo := by
  have he : c.engine.entry o b = some en := by rw [entry, hm, Option.bind_some, hen]
  obtain ⟨htbl, hslot⟩ := hG.exact.of_entry o b en he
  obtain ⟨it, info, hit, hinfo, hp, hv'⟩ := hG.view_of_tbl htbl
  rw [hv', Option.some.injEq] at hv
  obtain ⟨info', hinfo', -, hr⟩ := (hG.items o it hit).reads _ b htbl (by simp)
  rw [hinfo, Option.some.injEq] at hinfo'
  subst hinfo'
  refine ⟨hslot, by rw [← hv]; rfl, ?_⟩
  rw [BlockOffsets.getReadableTo, hr, Map.lookup_single_self, ← hv]
  rfl

/-- A block that is seen has an entry. -/
lemma Good.entry_of_view (hG : c.Good cfg tbl) {v : BlockView} (hv : c.view cfg o b = some v) :
    ∃ m en, c.engine.ownerOrderedPagesMapping.lookup o = some m ∧ m.lookup b = some en := by
  obtain ⟨-, -, p, -, -, -, htbl, -⟩ := hG.exists_of_view hv
  obtain ⟨en, he, -⟩ := hG.exact.entry_of p o b htbl
  rw [entry, Option.bind_eq_some_iff] at he
  obtain ⟨m, hm, hen⟩ := he
  exact ⟨m, en, hm, hen⟩

/-- The view after the engine is cleaned. -/
lemma Good.view_cleaned (hG : c.Good cfg tbl) {e' : Engine} (hC : Cleaned c.engine o e') {it : Item}
    (hit : c.contents.lookup o = some it) (o' : String) (b : ℤ) :
    Cache.view cfg { (c.setItem o (it.setDataSyncFlag true)) with engine := e' } o' b
      = if o' = o then (c.view cfg o b).map fun v => { v with dirty := false }
        else c.view cfg o' b := by
  have hkey : ∀ o1, Cache.view cfg
      { (c.setItem o (it.setDataSyncFlag true)) with engine := e' } o1 b
      = (c.contents.lookup o1).bind fun it => it.view cfg e' b := by
    intro o1
    rw [view]
    dsimp only [Cache.setItem]
    rw [Map.lookup_set]
    split_ifs with ho
    · rw [ho, hit]
      rfl
    · rfl
  -- the pages of the owner are clean, and no other page changed
  have hpage : ∀ {o1 : String} {p : ℕ} (r : ℤ), tbl p = some (o1, b) → e'.blockAt cfg p r
      = if o1 = o then { c.engine.blockAt cfg p r with dirty := false }
        else c.engine.blockAt cfg p r := by
    intro o1 p r hp
    rw [blockAt, blockAt, hC.data]
    split_ifs with ho
    · obtain ⟨en, he, hid⟩ := hG.exact.entry_of p o1 b hp
      rw [ho] at he hp
      have hclean := hC.clean b en he (hG.rep.known p o b hp)
      rw [hid] at hclean
      rw [hclean]
    · congr 1
      by_contra hne
      obtain ⟨b', en, he, hid⟩ := hC.named p hne
      have htbl := (hG.exact.of_entry o b' en he).1
      rw [hid, hp] at htbl
      exact ho (Prod.mk.inj (Option.some.inj htbl)).1
  have hview : ∀ o1, Cache.view cfg
      { (c.setItem o (it.setDataSyncFlag true)) with engine := e' } o1 b
      = (c.view cfg o1 b).map fun v => if o1 = o then { v with dirty := false } else v := by
    intro o1
    rw [hkey, view]
    cases hit1 : c.contents.lookup o1 with
    | none => rfl
    | some it1 =>
        rw [Option.bind_some, Option.bind_some, Item.view, Item.view]
        cases hinfo : it1.data.blocks.lookup b with
        | none => rfl
        | some info =>
            obtain ⟨p, hp, htbl⟩ := (hG.items o1 it1 hit1).infos b info hinfo (by simp)
            rw [Option.bind_some, Option.bind_some, hp, Option.map_some, Option.map_some,
              Option.map_some, hpage _ htbl]
  -- so is every block that is seen through them
  rw [hview]
  split_ifs with ho
  · rw [ho]
  · exact Option.map_id'

end Cache

/-- The calls of a write-back succeed in full. -/
structure Engine.SyncIo.Ok (io : SyncIo) : Prop where
  openOk : io.openOk = true
  pwritev : ∀ k, io.pwritev k = .full

/-- The descriptor that a write-back writes to. -/
lemma Disk.openWrite_sync {d : Disk} {path : Path} {i : ℕ} (hi : d.ino path = some i)
    (io : SyncIo) : (if io.openOk then d.openWrite path else none)
      = if io.openOk then some ⟨i, false, true⟩ else none := by
  rw [Disk.openWrite, hi]
  rfl

/-- `ftruncate` on the descriptor of a write-back. -/
lemma Disk.ftruncate_sync (d : Disk) (i n : ℕ) (io : SyncIo) :
    (d.ftruncate (if io.openOk then some ⟨i, false, true⟩ else none) io.ftruncateOk n).2
      = if io.openOk && io.ftruncateOk then d.setBytes i (Bytes.resize (d.bytes i) n) else d := by
  cases io.openOk <;> cases h : io.ftruncateOk <;> simp [Disk.ftruncate]

namespace Cache

variable {c : Cache} {tbl : PageTable} {i : ℕ}

/-- Pages that are cleaned keep their bytes and their blocks. -/
lemma searchIndex_cleanPages_keeps (e : Engine) (l : List (ℤ × OrderedEntry)) (q : ℕ) :
    ((e.cleanPages l).searchIndex q).data = (e.searchIndex q).data ∧
      ((e.cleanPages l).searchIndex q).allocatedBlockIds
        = (e.searchIndex q).allocatedBlockIds := by
  rw [searchIndex_cleanPages]
  split_ifs <;> exact ⟨rfl, rfl⟩

/-- The dirty blocks of a file are in the only slots of their pages. -/
lemma Good.slotted_dirtyBlocks (hG : c.Good cfg tbl) {disk : List UInt8} {m : Map ℤ OrderedEntry}
    (hm : c.engine.ownerOrderedPagesMapping.lookup (inodeStr i) = some m)
    (hb : FileView.Bounded cfg.ioBlockSize ⟨c.view cfg (inodeStr i), disk⟩) :
    Slotted cfg (c.engine.cleanPages (c.engine.dirtyBlocks m)) (c.engine.dirtyBlocks m) := by
  intro b en hen
  obtain ⟨hlook, v, hv, -⟩ := (hG.mem_dirtyBlocks hm).mp hen
  obtain ⟨h1, -, h3⟩ := hG.page_of_entry hm hlook hv
  obtain ⟨h4, h5, -⟩ := hb b v hv
  refine ⟨h1, v.readableTo.toNat, by omega, ?_⟩
  rw [(searchIndex_cleanPages_keeps _ _ _).2, h3, Int.toNat_of_nonneg h4]

/-- The file after the `ftruncate` at the end of a write-back, which has left `d1`. -/
lemma bytes_of_ftruncate {d d1 d' : Disk} {path : Path} (hi : d.ino path = some i)
    (hn : Disk.SameNames d d1) (ho : ∀ j, j ≠ i → d1.bytes j = d.bytes j) {n : ℕ} {io : SyncIo}
    (hd' : d' = (d1.ftruncate (if io.openOk then d.openWrite path else none)
      io.ftruncateOk n).2) :
    Disk.SameNames d d' ∧ (∀ j, j ≠ i → d'.bytes j = d.bytes j) ∧
      d'.bytes i = if io.openOk && io.ftruncateOk then Bytes.resize (d1.bytes i) n
        else d1.bytes i := by
  rw [Disk.openWrite_sync hi, Disk.ftruncate_sync] at hd'
  rw [hd']
  split_ifs
  · exact ⟨hn.trans (.setBytes d1 _ _),
      fun j hj => (Disk.bytes_setBytes_ne d1 _ hj).trans (ho j hj), Disk.bytes_setBytes_self d1 _ _⟩
  · exact ⟨hn, ho, rfl⟩

/-- **`sync_pages`** on the view of the file `i`: the descriptor is that of the file. -/
theorem Good.syncPages (hG : c.Good cfg tbl) {d d' : Disk} {path : Path} (hi : d.ino path = some i)
    (hb : FileView.Bounded cfg.ioBlockSize ⟨c.view cfg (inodeStr i), d.bytes i⟩)
    (n : ℕ) (io : SyncIo) {e' : Engine}
    (hs : c.engine.syncPages cfg d (inodeStr i) n path io = some (e', d')) :
    Disk.SameNames d d' ∧ (∀ j, j ≠ i → d'.bytes j = d.bytes j) ∧
      ∃ disk1, FileView.Flushed cfg.ioBlockSize ⟨c.view cfg (inodeStr i), d.bytes i⟩ disk1 ∧
        (io.Ok → (∀ b v, c.view cfg (inodeStr i) b = some v → v.dirty = true → 0 ≤ b) →
          FileView.Durable cfg.ioBlockSize ⟨c.view cfg (inodeStr i), d.bytes i⟩ disk1) ∧
        d'.bytes i = if io.openOk && io.ftruncateOk then Bytes.resize disk1 n else disk1 := by
  rcases syncPages_cases hs with ⟨hnone, -, hd'⟩ | ⟨m, m', d1, -, hm, hflush, -, hd'⟩
  · -- an owner without pages has no blocks
    obtain ⟨h1, h2, h3⟩ := bytes_of_ftruncate hi (.refl d) (fun _ _ => rfl) hd'
    have hempty : ∀ b v, c.view cfg (inodeStr i) b ≠ some v := by
      intro b v hv
      obtain ⟨-, -, p, -, -, -, htbl, -⟩ := hG.exists_of_view hv
      have := hG.rep.known p _ b htbl
      rw [hnone] at this
      cases this
    exact ⟨h1, h2, d.bytes i, ⟨fun _ _ _ => rfl, le_rfl, fun _ h _ => h⟩,
      fun _ _ _ v _ hv => absurd hv (hempty _ v), h3⟩
  · have hpage := searchIndex_cleanPages_keeps c.engine (c.engine.dirtyBlocks m)
    have hsl := hG.slotted_dirtyBlocks hm hb
    -- the dirty blocks go out in streaks, each with one `pwritev`
    have hstreaks := flatMap_blocks_streaks (c.engine.dirtyBlocks m)
    have hne : ∀ s ∈ streaks (c.engine.dirtyBlocks m) [], s.pageChunk ≠ [] :=
      fun s hs' => pageChunk_ne_nil _ _ hs'
    rw [Disk.openWrite_sync hi] at hflush
    have hF := flushStreaks_flushed (i := i) (fun f hf => by
      split_ifs at hf
      rw [← Option.some.inj hf]) io _ 0 m m' d d1 hne (by rw [hstreaks]; exact hsl) hflush
    rw [hstreaks] at hF
    obtain ⟨h1, h2, h3⟩ := bytes_of_ftruncate hi hF.names hF.others hd'
    refine ⟨h1, h2, d1.bytes i, ⟨fun pos hpos hclean => ?_, hF.length_ge, fun N hN hext => ?_⟩,
      fun hio hnn => ?_, h3⟩
    · -- a position of no dirty block
      refine hF.kept pos hpos fun en hen => ?_
      obtain ⟨-, v, hv, hd⟩ := (hG.mem_dirtyBlocks hm).mp hen
      rw [hclean v hv] at hd
      cases hd
    · -- the length of the file
      refine hF.length_le N hN fun b en r hen hr => ?_
      obtain ⟨hlook, v, hv, hd⟩ := (hG.mem_dirtyBlocks hm).mp hen
      obtain ⟨-, -, h4⟩ := hG.page_of_entry hm hlook hv
      rw [(hpage _).2, h4, Option.some.injEq] at hr
      rw [← hr]
      exact hext b v hv hd
    · -- a byte of a dirty block, where all calls succeed
      rw [if_pos hio.openOk] at hflush
      have hnd : ((c.engine.dirtyBlocks m).map Prod.fst).Nodup :=
        (Map.nodup_map_fst_sorted m).sublist ((sublist_dirtyLoop c.engine m.sorted).map _)
      have hD := flushStreaks_durable (i := i) ⟨rfl, rfl⟩ hio.pwritev _ 0 m m' d d1 hne
        (by rw [hstreaks]; exact hsl) (by rw [hstreaks]; exact hnd)
        (by
          rw [hstreaks]
          rintro ⟨b, en⟩ hen
          obtain ⟨-, v, hv, hd⟩ := (hG.mem_dirtyBlocks hm).mp hen
          exact hnn b v hv hd) hflush
      rw [hstreaks] at hD
      intro k v j hv hd hj
      obtain ⟨m2, en, hm2, hlook⟩ := hG.entry_of_view hv
      rw [hm, Option.some.injEq] at hm2
      subst hm2
      obtain ⟨-, h5, h6⟩ := hG.page_of_entry hm hlook hv
      obtain ⟨h7, h8, -⟩ := hb _ v hv
      have hval := hD k en v.readableTo.toNat j ((hG.mem_dirtyBlocks hm).mpr ⟨hlook, v, hv, hd⟩)
        (by rw [(hpage _).2, h6, Int.toNat_of_nonneg h7]) (by omega)
      rw [hval, (hpage _).1, h5, Mem.getElem?_read _ _ (by omega), zero_add]

end Cache

namespace FS

variable {fs fs' : FS} {i : ℕ} {path : Path}

/-- **`sync_owner`** on the view of a file that is cached with the size `n`. -/
theorem Sound.syncOwner (hS : fs.Sound cfg) (hi : fs.disk.ino path = some i) {m : Metadata}
    (hm : fs.metaOf i = some m) (hb : FileView.Bounded cfg.ioBlockSize (fs.file cfg i))
    (only : Bool) (io : SyncIo) :
    ∃ fs' disk1, fs.cache.syncOwner cfg fs.disk (inodeStr i) only path io
        = some (fs'.cache, fs'.disk, 0) ∧
      Changed cfg i fs fs' ∧ fs'.free = fs.free ∧
      FileView.Flushed cfg.ioBlockSize (fs.file cfg i) disk1 ∧
      (io.Ok → (∀ b v, (fs.file cfg i).blocks b = some v → v.dirty = true → 0 ≤ b) →
        FileView.Durable cfg.ioBlockSize (fs.file cfg i) disk1) ∧
      fs'.file cfg i = (fs.file cfg i).cleaned
        (if io.openOk && io.ftruncateOk then Bytes.resize disk1 m.size else disk1) := by
  obtain ⟨tbl, hG⟩ := hS.good
  obtain ⟨it, hit, hmeta⟩ := Option.map_eq_some_iff.mp hm
  -- the pages go to the disk
  obtain ⟨⟨e', d'⟩, hs⟩ := Option.isSome_iff_exists.mp
    (hG.rep.syncPages_isSome hG.exact fs.disk (inodeStr i) it.metadata.size path io)
  have hC := cleaned_of_syncPages hs
  obtain ⟨hnames, hothers, disk1, hF, hD, hbytes⟩ := hG.syncPages hi hb _ io hs
  obtain ⟨c', d1, r, hsync, hG'⟩ := hG.syncOwner fs.disk (inodeStr i) only path io
  -- then the item is marked synced
  have hres : fs.cache.syncOwner cfg fs.disk (inodeStr i) only path io
      = some ({ (fs.cache.setItem (inodeStr i) (it.setDataSyncFlag true)) with engine := e' },
        d', 0) := by
    rw [Cache.syncOwner, hit]
    simp only [hs, Option.bind_eq_bind, Option.bind_some]
  rw [hres, Option.some.injEq, Prod.mk.injEq] at hsync
  rw [← hsync.1] at hG'
  have hmetaOf : ∀ o, Cache.getContentMetadata
      { (fs.cache.setItem (inodeStr i) (it.setDataSyncFlag true)) with engine := e' } o
      = fs.cache.getContentMetadata o := by
    intro o
    refine (Cache.getContentMetadata_setItem fs.cache (inodeStr i)
      o (it.setDataSyncFlag true)).trans ?_
    split_ifs with ho
    · rw [ho, Cache.getContentMetadata, hit]
      rfl
    · rfl
  have hview := hG.view_cleaned hC hit
  -- names, items and the other files stay; the file is cleaned
  refine ⟨⟨_, d'⟩, disk1, hres, ⟨⟨⟨tbl, hG'⟩, fun p s hp => ?_, fun s hs' => ?_⟩, hnames, rfl,
    fun j => hmetaOf _, fun j hj => ?_⟩, ?_, hF, hD, ?_⟩
  · obtain ⟨j, hj, hsj⟩ := hS.named p s hp
    exact ⟨j, (hnames.ino p).trans hj, hsj⟩
  · refine hS.keys s ?_
    rw [← hmetaOf]
    exact hs'
  · rw [FS.file, FS.file]
    dsimp only
    rw [hothers j hj]
    congr 1
    funext b
    rw [hview, if_neg (fun h => hj (inodeStr_injective h))]
  · rw [FS.free, FS.free]
    dsimp only
    rw [hC.freePages]
  · rw [FS.file, FileView.cleaned]
    dsimp only
    rw [hbytes, ← hmeta]
    congr 1
    funext b
    rw [hview, if_pos rfl]
    rfl

/-- **`lfs_fsync`**, which reports success whatever becomes of its calls. -/
theorem Sound.lfsFsync (hS : fs.Sound cfg) (hi : fs.disk.ino path = some i)
    (hb : FileView.Bounded cfg.ioBlockSize (fs.file cfg i)) (isdatasync : Bool) (io : SyncIo) :
    ∃ fs' disk1, fs.lfsFsync cfg path isdatasync io = some (fs', 0) ∧
      Touched cfg path i (fs.sizeOf i) fs fs' ∧ fs'.free = fs.free ∧
      FileView.Flushed cfg.ioBlockSize (fs.file cfg i) disk1 ∧
      (io.Ok → (∀ b v, (fs.file cfg i).blocks b = some v → v.dirty = true → 0 ≤ b) →
        FileView.Durable cfg.ioBlockSize (fs.file cfg i) disk1) ∧
      fs'.file cfg i = (fs.file cfg i).cleaned
        (if io.openOk && io.ftruncateOk then Bytes.resize disk1 (fs.sizeOf i) else disk1) := by
  obtain ⟨fs1, st, hget, hopen, -⟩ := hS.lfsGetattr hi
  obtain ⟨m, hm, hmsize⟩ := hopen.touched.exists_meta
  have hview := hopen.view_eq
  obtain ⟨hfile, hfree⟩ := Prod.mk.inj hview
  have hi1 : fs1.disk.ino path = some i := by rw [hopen.disk]; exact hi
  have hcont : fs1.cache.hasContentCached (inodeStr i) = true := by
    obtain ⟨it, hit, -⟩ := Option.map_eq_some_iff.mp hm
    rw [Cache.hasContentCached, hit]
    rfl
  obtain ⟨fs2, disk1, hsync, hch, hfree2, hF, hD, hfile2⟩ :=
    hopen.sound.syncOwner hi1 hm (by rw [hfile]; exact hb) isdatasync io
  rw [hfile] at hF hD hfile2
  rw [hmsize] at hfile2
  refine ⟨fs2, disk1, ?_, hopen.touched.changed hch, hfree2.trans hfree, hF, hD, hfile2⟩
  rw [FS.lfsFsync]
  simp only [hget, Option.bind_eq_bind, Option.bind_some, hopen.inode, hcont, if_true, hsync]

end FS

end LazyFS
