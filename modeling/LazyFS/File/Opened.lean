import LazyFS.Model.FileOps
import LazyFS.File.Cached

/-!
The files of the file system, and `lfs_getattr`.

* `FS.file`, `FS.metaOf`: the view and the cached metadata of the file with a given inode.
* `FS.Sound`: the cache is in order and every mapped path names its own file.
* `FS.Changed i`: nothing but the file `i` differs; `FS.Opened`: what `lfs_getattr` does, by
  `Sound.lfsGetattr`.
-/

namespace LazyFS

open Engine

variable {cfg : Config}

/-! ### Metadata -/

namespace Cache

variable {c : Cache} {cid o : String} {b : ℤ}

lemma lookup_updateContentMetadata (c : Cache) (cid : String) (m : Metadata)
    (values : List MetaField) (o : String) :
    (c.updateContentMetadata cid m values).contents.lookup o
      = if o = cid then (c.contents.lookup cid).map fun it => it.updateMetadata m values
        else c.contents.lookup o := by
  rw [updateContentMetadata]
  cases hit : c.contents.lookup cid with
  | none =>
      dsimp only
      split_ifs with ho
      · rw [ho, hit, Option.map_none]
      · rfl
  | some it => rw [lookup_setItem, Option.map_some]

@[simp] lemma engine_updateContentMetadata (m : Metadata) (values : List MetaField) :
    (c.updateContentMetadata cid m values).engine = c.engine := by
  rw [updateContentMetadata]
  split <;> rfl

@[simp] lemma fileInodeMapping_updateContentMetadata (m : Metadata) (values : List MetaField) :
    (c.updateContentMetadata cid m values).fileInodeMapping = c.fileInodeMapping := by
  rw [updateContentMetadata]
  split <;> rfl

@[simp] lemma view_updateContentMetadata (m : Metadata) (values : List MetaField) :
    (c.updateContentMetadata cid m values).view cfg o b = c.view cfg o b := by
  rw [view, view, lookup_updateContentMetadata, engine_updateContentMetadata]
  split_ifs with ho
  · rw [ho]
    cases c.contents.lookup cid <;> rfl
  · rfl

lemma getContentMetadata_updateContentMetadata (m : Metadata) (values : List MetaField) :
    (c.updateContentMetadata cid m values).getContentMetadata o
      = if o = cid then (c.getContentMetadata cid).map fun m' =>
          values.foldl (Item.updateField m) m'
        else c.getContentMetadata o := by
  rw [getContentMetadata, lookup_updateContentMetadata]
  split_ifs with ho
  · rw [getContentMetadata, Option.map_map, Option.map_map]
    rfl
  · rfl

lemma contents_eq_none_iff : c.getContentMetadata cid = none ↔ c.contents.lookup cid = none := by
  rw [getContentMetadata, Option.map_eq_none_iff]

end Cache

namespace FS

variable {fs fs' fs'' : FS} {i : ℕ} {path : Path}

/-- The file with inode `i`. -/
def file (cfg : Config) (fs : FS) (i : ℕ) : FileView :=
  ⟨fun b => fs.cache.view cfg (inodeStr i) b, fs.disk.bytes i⟩

/-- The cached metadata of the file with inode `i`. -/
def metaOf (fs : FS) (i : ℕ) : Option Metadata := fs.cache.getContentMetadata (inodeStr i)

/-- The cache is in order, every mapped path names its own file and the items are files. -/
structure Sound (cfg : Config) (fs : FS) : Prop where
  good : ∃ tbl, fs.cache.Good cfg tbl
  named : ∀ p s, fs.cache.fileInodeMapping.lookup p = some s →
    ∃ i, fs.disk.ino p = some i ∧ s = inodeStr i
  keys : ∀ s, fs.cache.getContentMetadata s ≠ none → ∃ i, s = inodeStr i

/-- Nothing but the blocks and the bytes of the file `i` differs. -/
structure Changed (cfg : Config) (i : ℕ) (fs fs' : FS) : Prop where
  sound : fs'.Sound cfg
  names : Disk.SameNames fs.disk fs'.disk
  mapping : fs'.cache.fileInodeMapping = fs.cache.fileInodeMapping
  metaOf : ∀ j, fs'.metaOf j = fs.metaOf j
  file : ∀ j, j ≠ i → fs'.file cfg j = fs.file cfg j

lemma Changed.refl (hS : fs.Sound cfg) : Changed cfg i fs fs :=
  ⟨hS, .refl _, rfl, fun _ => rfl, fun _ _ => rfl⟩

lemma Changed.trans (h : Changed cfg i fs fs') (h' : Changed cfg i fs' fs'') :
    Changed cfg i fs fs'' :=
  ⟨h'.sound, h.names.trans h'.names, h'.mapping.trans h.mapping,
    fun j => (h'.metaOf j).trans (h.metaOf j), fun j hj => (h'.file j hj).trans (h.file j hj)⟩

/-- The file system after a path of the file `i` is looked up. -/
structure Opened (cfg : Config) (path : Path) (i : ℕ) (fs fs' : FS) : Prop where
  sound : fs'.Sound cfg
  disk : fs'.disk = fs.disk
  inode : fs'.cache.getOriginalInode path = inodeStr i
  mapping : ∀ p, fs'.cache.fileInodeMapping.lookup p
    = if p = path then some (inodeStr i) else fs.cache.fileInodeMapping.lookup p
  metaOf : ∀ j, fs'.metaOf j
    = if j = i then some ((fs.metaOf i).getD (statMeta (fs.disk.stat i))) else fs.metaOf j
  view : ∀ o b, fs'.cache.view cfg o b = fs.cache.view cfg o b
  freePages : fs'.cache.engine.freePages = fs.cache.engine.freePages

lemma Opened.file (h : Opened cfg path i fs fs') (j : ℕ) : fs'.file cfg j = fs.file cfg j := by
  rw [FS.file, FS.file, h.disk]
  congr 1
  funext b
  exact h.view _ _

/-- A new item. -/
lemma putNothing_eq {inode : String} (hn : fs.cache.contents.lookup inode = none) :
    fs.putNothing cfg inode
      = some ⟨(fs.cache.createItem inode).setItem inode .new, fs.disk⟩ := by
  have hnew : fs.cache.hasContentCached inode = false := by rw [Cache.hasContentCached, hn]; rfl
  have hit : (fs.cache.createItem inode).contents.lookup inode = some .new := by
    rw [Cache.lookup_createItem, if_pos rfl, hn, Option.getD_none]
  rw [putNothing, Cache.putDataBlocks]
  simp only [hnew, Bool.not_false, if_true, hit, Option.bind_eq_bind, Option.bind_some,
    Map.sorted_empty, Cache.putMapping, Engine.allocateBlocks, Engine.allocateLoop, Cache.putLoop,
    Bool.false_eq_true, if_false]
  rfl

/-- The cache after a new item is created and given its metadata. -/
lemma good_newItem {tbl : PageTable} {c : Cache} (hG : c.Good cfg tbl) {inode : String}
    (hn : c.contents.lookup inode = none) :
    ((c.createItem inode).setItem inode .new).Good cfg tbl :=
  have hit : (c.createItem inode).contents.lookup inode = some .new := by
    rw [Cache.lookup_createItem, if_pos rfl, hn, Option.getD_none]
  (hG.createItem hn).setItem hit rfl

/-- A mapped path of the file `i` is mapped to `i`. -/
lemma Sound.lookup_mapping (hS : fs.Sound cfg) (hi : fs.disk.ino path = some i) {s : String}
    (hs : fs.cache.fileInodeMapping.lookup path = some s) : s = inodeStr i := by
  obtain ⟨j, hj, rfl⟩ := hS.named path s hs
  rw [hi, Option.some.injEq] at hj
  rw [hj]

lemma lookup_entries_of_ino {d : Disk} (hi : d.ino path = some i) :
    d.entries.lookup path = some (.file i) := by
  rw [Disk.ino] at hi
  split at hi
  · rename_i heq
    rw [Option.some.injEq] at hi
    rw [heq, hi]
  · cases hi

/-- A file system with other metadata or another mapping of a path to its file. -/
lemma Sound.setCache {tbl : PageTable} {c : Cache} (hS : fs.Sound cfg) (hG : c.Good cfg tbl)
    (hm : ∀ p s, c.fileInodeMapping.lookup p = some s →
      fs.cache.fileInodeMapping.lookup p = some s ∨ ∃ i, fs.disk.ino p = some i ∧ s = inodeStr i)
    (hk : ∀ s, c.getContentMetadata s ≠ none →
      fs.cache.getContentMetadata s ≠ none ∨ ∃ i, s = inodeStr i) :
    (fs.setCache c).Sound cfg :=
  ⟨⟨tbl, hG⟩, fun p s hs => (hm p s hs).elim (fun h => hS.named p s h) id,
    fun s hs => (hk s hs).elim (fun h => hS.keys s h) id⟩

/-- The path is mapped to the file `i`, and nothing else has changed. -/
structure MapsTo (cfg : Config) (tbl : PageTable) (path : Path) (i : ℕ) (fs fs1 : FS) : Prop where
  disk : fs1.disk = fs.disk
  good : fs1.cache.Good cfg tbl
  mapping : ∀ p, fs1.cache.fileInodeMapping.lookup p
    = if p = path then some (inodeStr i) else fs.cache.fileInodeMapping.lookup p
  contents : fs1.cache.contents = fs.cache.contents
  engine : fs1.cache.engine = fs.cache.engine

/-- The path is looked up in the mapping, and mapped when it is not there. -/
lemma Sound.exists_mapsTo {tbl : PageTable} (hS : fs.Sound cfg) (hG : fs.cache.Good cfg tbl)
    (hi : fs.disk.ino path = some i) : ∃ fs1 : FS,
      (let mapped := fs.cache.getOriginalInode path
       (if mapped = "" then inodeStr i else mapped,
        if mapped = "" then fs.setCache (fs.cache.insertInodeMapping path
          (if mapped = "" then inodeStr i else mapped) false) else fs)) = (inodeStr i, fs1) ∧
      MapsTo cfg tbl path i fs fs1 := by
  cases hs : fs.cache.fileInodeMapping.lookup path with
  | none =>
      refine ⟨fs.setCache (fs.cache.insertInodeMapping path (inodeStr i) false), ?_, rfl,
        hG.insertInodeMapping path (inodeStr i) false, fun p => Map.lookup_set _ _ _ _, rfl, rfl⟩
      simp [Cache.getOriginalInode, hs]
  | some s =>
      have hsi := hS.lookup_mapping hi hs
      refine ⟨fs, by simp [Cache.getOriginalInode, hs, hsi, inodeStr_ne_empty], rfl, hG,
        fun p => ?_, rfl, rfl⟩
      split_ifs with hp
      · rw [hp, hs, hsi]
      · rfl

namespace MapsTo

variable {tbl : PageTable} {fs1 : FS} (hT : MapsTo cfg tbl path i fs fs1)

include hT

lemma inode : fs1.cache.getOriginalInode path = inodeStr i := by
  rw [Cache.getOriginalInode, hT.mapping, if_pos rfl, Option.getD_some]

lemma getContentMetadata : fs1.cache.getContentMetadata = fs.cache.getContentMetadata := by
  funext s
  rw [Cache.getContentMetadata, Cache.getContentMetadata, hT.contents]

lemma metaOf (j : ℕ) : fs1.metaOf j = fs.metaOf j := by
  rw [FS.metaOf, FS.metaOf, hT.getContentMetadata]

lemma view (o : String) (b : ℤ) : fs1.cache.view cfg o b = fs.cache.view cfg o b := by
  rw [Cache.view, Cache.view, hT.contents, hT.engine]

lemma named (hS : fs.Sound cfg) (hi : fs.disk.ino path = some i) (p : Path) (s : String)
    (hs : fs1.cache.fileInodeMapping.lookup p = some s) :
    ∃ i, fs.disk.ino p = some i ∧ s = inodeStr i := by
  rw [hT.mapping] at hs
  split_ifs at hs with hp
  · rw [Option.some.injEq] at hs
    exact ⟨i, by rw [hp, hi], hs.symm⟩
  · exact hS.named p s hs

/-- A file that is cached keeps its metadata. -/
lemma opened_some (hS : fs.Sound cfg) (hi : fs.disk.ino path = some i) {m : Metadata}
    (hm : fs.metaOf i = some m) : Opened cfg path i fs fs1 := by
  refine ⟨⟨⟨tbl, hT.good⟩, ?_, ?_⟩, hT.disk, hT.inode, hT.mapping, fun j => ?_, hT.view, ?_⟩
  · rw [hT.disk]
    exact hT.named hS hi
  · rw [hT.getContentMetadata]
    exact hS.keys
  · rw [hT.metaOf]
    split_ifs with hj
    · rw [hj, hm, Option.getD_some]
    · rfl
  · rw [hT.engine]

/-- A file that is not cached gets an item without blocks, and its metadata from the backing file
system. -/
lemma opened_none (hS : fs.Sound cfg) (hi : fs.disk.ino path = some i) (hm : fs.metaOf i = none) :
    Opened cfg path i fs (({ fs1 with
        cache := (fs1.cache.createItem (inodeStr i)).setItem (inodeStr i) .new } : FS).updateMeta
      (inodeStr i) (statMeta (fs.disk.stat i))
      [.size, .atime, .ctime, .mtime, .nlinks]) := by
  have hn := Cache.contents_eq_none_iff.mp ((hT.metaOf i).trans hm)
  refine ⟨⟨⟨tbl, (good_newItem hT.good hn).updateContentMetadata _ _ _⟩, ?_, fun s hs => ?_⟩,
    hT.disk, ?_, ?_, fun j => ?_, fun o b => ?_, ?_⟩
  · dsimp only [FS.updateMeta, FS.setCache]
    -- the names
    rw [Cache.fileInodeMapping_updateContentMetadata, hT.disk]
    exact hT.named hS hi
  · dsimp only [FS.updateMeta, FS.setCache] at hs
    -- the keys of the items
    by_cases hsi : s = inodeStr i
    · exact ⟨i, hsi⟩
    · rw [Cache.getContentMetadata_updateContentMetadata, if_neg hsi,
        Cache.getContentMetadata_setItem, if_neg hsi, Cache.getContentMetadata,
        Cache.lookup_createItem, if_neg hsi] at hs
      refine hS.keys s ?_
      rwa [← hT.getContentMetadata]
  · dsimp only [FS.updateMeta, FS.setCache]
    rw [Cache.getOriginalInode, Cache.fileInodeMapping_updateContentMetadata]
    exact hT.inode
  · dsimp only [FS.updateMeta, FS.setCache]
    rw [Cache.fileInodeMapping_updateContentMetadata]
    exact hT.mapping
  · dsimp only [FS.metaOf, FS.updateMeta, FS.setCache]
    rw [Cache.getContentMetadata_updateContentMetadata, Cache.getContentMetadata_setItem,
      if_pos rfl, Cache.getContentMetadata_setItem]
    -- the metadata, which is new for this file only
    by_cases hj : j = i
    · have hm' : fs.cache.getContentMetadata (inodeStr i) = none := hm
      rw [if_pos (by rw [hj]), if_pos hj, hm']
      rfl
    · have hj' : inodeStr j ≠ inodeStr i := fun h => hj (inodeStr_injective h)
      rw [if_neg hj', if_neg hj', if_neg hj, ← hT.getContentMetadata, Cache.getContentMetadata,
        Cache.getContentMetadata, Cache.lookup_createItem, if_neg hj']
  · dsimp only [FS.updateMeta, FS.setCache]
    rw [Cache.view_updateContentMetadata, Cache.view_setItem, ← hT.view]
    -- the blocks, of which it has none
    split_ifs with ho
    · rw [ho, Cache.view_of_lookup_none hn]
      rfl
    · rw [Cache.view, Cache.view, Cache.lookup_createItem, if_neg ho]
      rfl
  · dsimp only [FS.updateMeta, FS.setCache]
    rw [Cache.engine_updateContentMetadata]
    exact congrArg Engine.freePages hT.engine

end MapsTo

/-- **`lfs_getattr`** on a regular file. -/
theorem Sound.lfsGetattr (hS : fs.Sound cfg) (hi : fs.disk.ino path = some i) :
    ∃ fs' st, fs.lfsGetattr cfg path = some (fs', .reg st) ∧ Opened cfg path i fs fs' ∧
      st.stSize = ((fs.metaOf i).getD (statMeta (fs.disk.stat i))).size := by
  obtain ⟨tbl, hG⟩ := hS.good
  have hentry := lookup_entries_of_ino hi
  -- the path is mapped first
  obtain ⟨fs1, hfs1, hT⟩ := hS.exists_mapsTo hG hi
  rw [Prod.mk.injEq] at hfs1
  rw [FS.lfsGetattr, hentry]
  dsimp only at hfs1 ⊢
  obtain ⟨hmapped, hstate⟩ := hfs1
  rw [hmapped] at hstate
  rw [hmapped, hstate]
  cases hm : fs1.cache.getContentMetadata (inodeStr i) with
  | some m =>
      have hmi : fs.metaOf i = some m := by rw [← hT.metaOf]; exact hm
      refine ⟨fs1, _, rfl, hT.opened_some hS hi hmi, ?_⟩
      rw [hmi, Option.getD_some]
      rfl
  | none =>
      have hmi : fs.metaOf i = none := by rw [← hT.metaOf]; exact hm
      rw [putNothing_eq (Cache.contents_eq_none_iff.mp hm)]
      refine ⟨_, _, rfl, hT.opened_none hS hi hmi, ?_⟩
      rw [hmi, Option.getD_none]
      rfl

end FS

end LazyFS
