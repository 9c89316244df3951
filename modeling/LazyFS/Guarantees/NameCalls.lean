import LazyFS.File.Links
import LazyFS.Guarantees.DirectoryRename

/-!
**Calls on names**, of regular files and symbolic links.

* `Disk.names`: the names of a file; `nlink_eraseEntry`, `nlink_setEntry` count them.
* `Disk.lookup_rename`: a file renamed is its old name removed and its new name set.
* `Cache.loseLink`: an item that loses a link, and goes with the last one; it is all that
  `lfs_unlink` and `lfs_rename` do to an item.
* `Shows.lfsCreate` to `Shows.lfsRename`: what the calls make of the contents, for any invariant of
  the views.
-/

namespace LazyFS

open Engine

variable {cfg : Config}

/-! ### Names -/

namespace Disk

variable {d d' : Disk} {p q source dest : Path} {i j : ℕ} {o : Obj}

lemma ino_eq_some : d.ino p = some i ↔ d.entries.lookup p = some (.file i) :=
  ⟨lookup_of_ino, fun h => by rw [ino, h]⟩

/-- The names of a file. -/
def names (d : Disk) (i : ℕ) : Finset Path := d.entries.keysOf (.file i)

@[simp] lemma mem_names : p ∈ d.names i ↔ d.ino p = some i := by
  rw [names, Map.mem_keysOf, ino_eq_some]

lemma card_names (d : Disk) (i : ℕ) : (d.names i).card = d.nlink i := Map.card_keysOf _ _

@[simp] lemma lookup_setEntry (d : Disk) (p q : Path) (o : Obj) :
    (d.setEntry p o).entries.lookup q = if q = p then some o else d.entries.lookup q :=
  Map.lookup_set _ _ _ _

@[simp] lemma lookup_eraseEntry (d : Disk) (p q : Path) :
    (d.eraseEntry p).entries.lookup q = if q = p then none else d.entries.lookup q :=
  Map.lookup_erase' _ _ _

/-- Disks with the same names. -/
lemma ino_congr (h : ∀ q, d'.entries.lookup q = d.entries.lookup q)
    (p : Path) : d'.ino p = d.ino p := by
  rw [ino, ino, h]

lemma nlink_congr (h : ∀ q, d'.entries.lookup q = d.entries.lookup q)
    (i : ℕ) : d'.nlink i = d.nlink i := by
  rw [← card_names, ← card_names]
  congr 1
  ext q
  rw [mem_names, mem_names, ino_congr h]

lemma ino_eraseEntry (d : Disk) (p q : Path) : (d.eraseEntry p).ino q = if q = p then
    none else d.ino q := by
  rw [ino, lookup_eraseEntry]
  split_ifs <;> rfl

lemma ino_setEntry (d : Disk) (p q : Path) (i : ℕ) :
    (d.setEntry p (.file i)).ino q = if q = p then some i else d.ino q := by
  rw [ino, lookup_setEntry]
  split_ifs <;> rfl

/-- A name removed is a link less of its file. -/
lemma nlink_eraseEntry (d : Disk) (p : Path) (j : ℕ) :
    (d.eraseEntry p).nlink j = if d.ino p = some j then d.nlink j - 1 else d.nlink j := by
  have hnames : (d.eraseEntry p).names j = (d.names j).erase p := by
    ext q
    rw [mem_names, ino_eraseEntry, Finset.mem_erase, mem_names]
    by_cases hq : q = p
    · simp [hq]
    · simp [hq]
  rw [← card_names, hnames, ← card_names]
  split_ifs with hp
  · exact Finset.card_erase_of_mem (mem_names.mpr hp)
  · rw [Finset.erase_eq_of_notMem (by rwa [mem_names])]

/-- A new name is a link more of its file. -/
lemma nlink_setEntry (d : Disk) (h : d.ino p = none) (i j : ℕ) :
    (d.setEntry p (.file i)).nlink j = if j = i then d.nlink j + 1 else d.nlink j := by
  have hnot : p ∉ d.names j := by
    rw [mem_names, h]
    exact Option.some_ne_none j ∘ Eq.symm
  rw [← card_names, ← card_names]
  split_ifs with hj
  · have hnames : (d.setEntry p (.file i)).names j = insert p (d.names j) := by
      ext q
      rw [mem_names, ino_setEntry, Finset.mem_insert, mem_names]
      by_cases hq : q = p
      · simp [hq, hj]
      · simp [hq]
    rw [hnames, Finset.card_insert_of_notMem hnot]
  · congr 1
    ext q
    rw [mem_names, ino_setEntry, mem_names]
    by_cases hq : q = p
    · subst hq
      rw [if_pos rfl, h, Option.some.injEq]
      exact iff_of_false (Ne.symm hj) (by simp)
    · rw [if_neg hq]

/-- A symbolic link is no link of a file. -/
lemma ino_symlink (d : Disk) (h : d.entries.lookup p = none) (i : ℕ) (q : Path) :
    (d.setEntry p (.symlink i)).ino q = d.ino q := by
  rw [ino, lookup_setEntry, ino]
  split_ifs with hq
  · rw [hq, h]
  · rfl

lemma nlink_of_ino (h : ∀ q, d'.ino q = d.ino q) (i : ℕ) : d'.nlink i = d.nlink i := by
  rw [← card_names, ← card_names]
  congr 1
  ext q
  rw [mem_names, mem_names, h]

/-- One name changes that is no directory before or after. -/
lemma WellFormed.change (h : d.WellFormed) (p : Path) (o' : Option Obj) (hold : ¬ d.isDir p)
    (hnew : o' = none ∨ d.isDir p.dropLast)
    (hl : ∀ q, d'.entries.lookup q = if q = p then o' else d.entries.lookup q) : d'.WellFormed := by
  have hdir : ∀ q, d.isDir q → d'.isDir q := by
    intro q hq
    rw [isDir, hl, if_neg (by rintro rfl; exact hold hq)]
    exact hq
  refine ⟨hdir [] h.root, fun q o hq => hdir _ ?_⟩
  rw [hl] at hq
  split_ifs at hq with hqp
  · rcases hnew with hnew | hnew
    · rw [hnew] at hq
      cases hq
    · rwa [hqp]
  · exact h.parent q o hq

/-- A name that a file may be renamed to: a free one, a symbolic link or the name of another
file. -/
def Replaceable (d : Disk) (i : ℕ) (dest : Path) : Prop :=
  d.Free dest ∨ (∃ k, d.entries.lookup dest = some (.symlink k)) ∨ ∃ j, j ≠ i ∧ d.ino dest = some j

namespace Replaceable

lemma not_isDir (h : d.Replaceable i dest) : ¬ d.isDir dest := by
  rcases h with h | ⟨k, h⟩ | ⟨j, -, h⟩
  · rw [isDir, h.1]
    exact Option.some_ne_none _ ∘ Eq.symm
  · rw [isDir, h]
    simp
  · exact not_isDir_of_ino h

lemma isDir_dropLast (h : d.Replaceable i dest) (hW : d.WellFormed) : d.isDir dest.dropLast := by
  rcases h with h | ⟨k, h⟩ | ⟨j, -, h⟩
  · exact h.2
  · exact hW.parent _ _ h
  · exact hW.parent _ _ (lookup_of_ino h)

lemma ne (h : d.Replaceable i dest) (hi : d.ino source = some i) : source ≠ dest := by
  rintro rfl
  rcases h with h | ⟨k, h⟩ | ⟨j, hj, h⟩
  · rw [ino, h.1] at hi
    cases hi
  · rw [ino, h] at hi
    cases hi
  · rw [h, Option.some.injEq] at hi
    exact hj hi

end Replaceable

/-- **A file renamed**: the call succeeds, and the names are those after its old name is removed and
its new one set. -/
theorem lookup_rename (hW : d.WellFormed) (hi : d.ino source = some i)
    (hdest : d.Replaceable i dest) :
    ∃ d', d.rename source dest = some d' ∧ d'.bytes = d.bytes ∧
      ∀ q, d'.entries.lookup q
        = ((d.eraseEntry source).setEntry dest (.file i)).entries.lookup q := by
  have hne := hdest.ne hi
  have hsource := lookup_of_ino hi
  refine ⟨d.moveTree source dest, ?_, rfl, ?_⟩
  · have hdir := hdest.isDir_dropLast hW
    rw [rename, hsource]
    rcases hdest with h | ⟨k, h⟩ | ⟨j, hj, h⟩
    · rw [h.1]
      exact if_pos ⟨hdir, by simp⟩
    · rw [h]
      exact if_neg (by simp)
    · rw [lookup_of_ino h]
      exact if_neg fun heq => hj (by cases heq; rfl)
  · -- a name below a file is the file
    have hmove : ∀ q o, d.entries.lookup q = some o →
        moveName source dest q = if q = source then dest else q := by
      intro q o hq
      rw [moveName]
      by_cases hpre : source <+: q
      · obtain ⟨s, rfl⟩ := hpre
        rw [if_pos (List.prefix_append _ _)]
        by_cases hs : s = []
        · rw [hs, List.append_nil, if_pos rfl, List.drop_length, List.append_nil]
        · exact absurd (hW.isDir_of_below hs hq) (not_isDir_of_ino hi)
      · rw [if_neg hpre, if_neg (by rintro rfl; exact hpre (List.prefix_refl _))]
    -- the entry replaced goes, and no two names become one
    have hmem : ∀ q o, (q, o) ∈ Map.toList (AList.erase dest d.entries) ↔
        q ≠ dest ∧ d.entries.lookup q = some o := by
      intro q o
      rw [Map.mem_toList, Map.lookup_erase']
      by_cases hq : q = dest
      · simp [hq]
      · simp [hq]
    have hnd : ((Map.toList (AList.erase dest d.entries)).map fun e =>
        moveName source dest e.1).Nodup := by
      have hkeys := Map.nodup_map_fst_toList (AList.erase dest d.entries)
      rw [List.Nodup, List.pairwise_map] at hkeys ⊢
      refine hkeys.imp_of_mem fun {a b} ha hb hab => ?_
      obtain ⟨ha1, ha2⟩ := (hmem a.1 a.2).mp ha
      obtain ⟨hb1, hb2⟩ := (hmem b.1 b.2).mp hb
      rw [hmove _ _ ha2, hmove _ _ hb2]
      split_ifs with h1 h2 h2
      · exact absurd (h1.trans h2.symm) hab
      · exact Ne.symm hb1
      · exact ha1
      · exact hab
    intro q
    refine Option.ext fun o => ?_
    rw [moveTree, Map.lookup_foldl_set _ _ hnd, lookup_setEntry, lookup_eraseEntry]
    simp only [hmem, AList.lookup_empty, reduceCtorEq, false_and, or_false]
    constructor
    · rintro ⟨b, ⟨hb1, hb2⟩, rfl⟩
      rw [hmove _ _ hb2]
      by_cases hb : b = source
      · subst hb
        rw [if_pos rfl, if_pos rfl, ← hsource, hb2]
      · rw [if_neg hb, if_neg hb1, if_neg hb, hb2]
    · intro hq
      by_cases hqd : q = dest
      · rw [if_pos hqd] at hq
        refine ⟨source, ⟨hne, hsource.trans hq⟩, ?_⟩
        rw [hmove _ _ hsource, if_pos rfl, hqd]
      · rw [if_neg hqd] at hq
        split_ifs at hq with hqs
        refine ⟨q, ⟨hqd, hq⟩, ?_⟩
        rw [hmove _ _ hq, if_neg hqs]

end Disk

/-! ### Items that lose a link -/

namespace Cache

variable {c : Cache} {tbl : PageTable} {cid : String} {m : Metadata}

/-- An item loses a link, and goes when it was the last. -/
def loseLink (cfg : Config) (c : Cache) (cid : String) : Cache :=
  match c.contents.lookup cid with
  | none => c
  | some it =>
      if 1 < it.metadata.nlinks then c.setItem cid (dropLink it)
      else (c.setItem cid (dropLink it)).deleteItem cfg cid

/-- `remove_cached_item` of an item that is there, for `lfs_unlink`. -/
lemma removeCachedItem_eq (hm : c.getContentMetadata cid = some m) (path : Path) :
    (c.removeCachedItem cfg cid path false).1
      = ({ c with fileInodeMapping := c.fileInodeMapping.erase path } : Cache).loseLink
        cfg cid := by
  obtain ⟨it, hit, -⟩ := Option.map_eq_some_iff.mp hm
  rw [removeCachedItem, loseLink, hit]
  dsimp only
  by_cases hlast : 1 < it.metadata.nlinks
  · simp [hlast]
  · simp [hlast]

/-- `rename_item` of a mapped name. -/
lemma renameItem_eq {old new : Path} (hold : c.fileInodeMapping.lookup old = some cid) :
    c.renameItem cfg old new
      = ({ c with fileInodeMapping := Map.set (c.fileInodeMapping.erase old) new cid } :
        Cache).loseLink cfg
          ((c.fileInodeMapping.lookup new).getD "") := by
  rw [renameItem, hold]
  rfl

lemma loseLink_of_none (h : c.contents.lookup cid = none) : c.loseLink cfg cid = c := by
  rw [loseLink, h]

/-- The blocks of the other items are still seen. -/
lemma Good.view_deleteItem (h : OnePage cfg) (hG : c.Good cfg tbl) (cid o : String) (b : ℤ) :
    (c.deleteItem cfg cid).view cfg o b = if o = cid then none else c.view cfg o b := by
  have hrm := hG.rep.removeCachedBlocks h.oneBlock cid
  rw [view, Cache.deleteItem, Map.lookup_erase']
  by_cases ho : o = cid
  · rw [if_pos ho, if_pos ho, Option.bind_none]
  · rw [if_neg ho, if_neg ho, view]
    refine Option.bind_congr fun it hit => ?_
    rw [Item.view, Item.view]
    refine Option.bind_congr fun info hinfo => ?_
    cases hp : info.pageIndexNumber with
    | none => rfl
    | some p =>
        obtain ⟨q, hq, htq⟩ := (hG.items o it hit).infos b info hinfo (by simp)
        rw [hp, Option.some.injEq] at hq
        rw [Option.map_some, Option.map_some, blockAt, blockAt, hrm.searchIndex p o b (hq ▸ htq) ho]

/-- **An item that loses a link**: it stays with its blocks, unless it was the last. -/
theorem Good.loseLink (h : OnePage cfg) (hG : c.Good cfg tbl)
    (hm : c.getContentMetadata cid = some m) : (∃ tbl', (c.loseLink cfg cid).Good cfg tbl') ∧
      (c.loseLink cfg cid).fileInodeMapping = c.fileInodeMapping ∧
      (∀ o, (c.loseLink cfg cid).getContentMetadata o = if o = cid then
        (if 1 < m.nlinks then some { m with nlinks := m.nlinks - 1 } else none)
        else c.getContentMetadata o) ∧
      ∀ o b, (c.loseLink cfg cid).view cfg o b
        = if o = cid ∧ ¬ 1 < m.nlinks then none else c.view cfg o b := by
  obtain ⟨it, hit, rfl⟩ := Option.map_eq_some_iff.mp hm
  have hG1 : (c.setItem cid (dropLink it)).Good cfg tbl := hG.setItem hit rfl
  have hview : ∀ o b, (c.setItem cid (dropLink it)).view cfg o b = c.view cfg o b := by
    intro o b
    rw [view_setItem]
    split_ifs with ho
    · rw [ho, view_of_lookup hit]
      rfl
    · rfl
  rw [Cache.loseLink, hit]
  dsimp only
  -- the item stays while it has a link, and is deleted with the last
  by_cases hlast : 1 < it.metadata.nlinks
  · rw [if_pos hlast, if_pos hlast]
    refine ⟨⟨tbl, hG1⟩, rfl, fun o => ?_, fun o b => ?_⟩
    · have hdrop : (dropLink it).metadata
          = { it.metadata with nlinks := it.metadata.nlinks - 1 } := by
        have hmax : max (it.metadata.nlinks - 1) 1 = it.metadata.nlinks - 1 :=
          max_eq_left (by omega)
        have hmeta : (dropLink it).metadata
            = { it.metadata with nlinks := max (it.metadata.nlinks - 1) 1 } := rfl
        rw [hmeta, hmax]
      rw [getContentMetadata_setItem, hdrop]
    · rw [hview, if_neg fun hn => hn.2 hlast]
  · rw [if_neg hlast, if_neg hlast]
    refine ⟨⟨_, hG1.deleteItem h cid⟩, rfl, fun o => ?_, fun o b => ?_⟩
    · rw [getContentMetadata, Cache.deleteItem, Map.lookup_erase']
      split_ifs with ho
      · rfl
      · rw [lookup_setItem, if_neg ho]
        rfl
    · rw [hG1.view_deleteItem h, hview]
      by_cases ho : o = cid
      · rw [if_pos ho, if_pos ⟨ho, hlast⟩]
      · rw [if_neg ho, if_neg fun hn => ho hn.1]

end Cache

/-! ### The calls -/

/-- The contents when a name goes: those of a file without a name are what the backing file system
has. -/
def Disk.forget (d : Disk) (p : Path) (c : ℕ → List UInt8) : ℕ → List UInt8 :=
  match d.ino p with
  | some i => if 1 < d.nlink i then c else Function.update c i (d.bytes i)
  | none => c

namespace FS

variable {fs fs' : FS} {P : List UInt8 → FileView → Prop} {c : ℕ → List UInt8} {i j : ℕ}
  {path source dest : Path} {m : Metadata}

/-- The path of a file that the kernel has looked up: it is mapped, and the file is cached. -/
structure LookedUp (fs : FS) (path : Path) (i : ℕ) : Prop where
  ino : fs.disk.ino path = some i
  mapped : fs.cache.fileInodeMapping.lookup path = some (inodeStr i)
  cached : (fs.metaOf i).isSome

lemma LookedUp.inode (h : fs.LookedUp path i) : fs.cache.getOriginalInode path = inodeStr i := by
  rw [Cache.getOriginalInode, h.mapped, Option.getD_some]

lemma Opened.lookedUp (h : Opened cfg path i fs fs') (hi : fs.disk.ino path = some i) :
    fs'.LookedUp path i := by
  refine ⟨by rw [h.disk, hi], by rw [h.mapping, if_pos rfl], ?_⟩
  rw [h.metaOf, if_pos rfl]
  rfl

/-- A look-up keeps another one. -/
lemma LookedUp.keep (h : fs.LookedUp source i) (ho : Opened cfg path j fs fs')
    (hj : fs.disk.ino path = some j) : fs'.LookedUp source i := by
  refine ⟨by rw [ho.disk, h.ino], ?_, ?_⟩
  · rw [ho.mapping]
    split_ifs with hp
    · have hij := h.ino
      rw [hp, hj, Option.some.injEq] at hij
      rw [hij]
    · exact h.mapped
  · rw [ho.metaOf]
    split_ifs
    · rfl
    · exact h.cached

/-- No name of anything but a file is mapped. -/
lemma Sound.inode_of_none (hS : fs.Sound cfg) (hi : fs.disk.ino path = none) :
    fs.cache.fileInodeMapping.lookup path = none := by
  cases hs : fs.cache.fileInodeMapping.lookup path with
  | none => rfl
  | some s =>
      obtain ⟨i, hj, -⟩ := hS.named path s hs
      rw [hi] at hj
      cases hj

/-- No item is cached without a name. -/
lemma Sound.lookup_empty (hS : fs.Sound cfg) : fs.cache.contents.lookup "" = none := by
  by_contra hne
  obtain ⟨i, hi⟩ := hS.keys "" fun h => hne (Cache.contents_eq_none_iff.mp h)
  exact inodeStr_ne_empty i hi.symm

/-- A file that is not cached has no blocks. -/
lemma file_of_metaOf_none (hm : fs.metaOf i = none) : fs.file cfg i = .bare (fs.disk.bytes i) := by
  rw [FS.file, FileView.bare]
  congr 1
  funext b
  exact Cache.view_of_lookup_none (Cache.contents_eq_none_iff.mp hm)

/-- Names change, in the cache and in the backing file system, and nothing else. -/
lemma Shows.mapped (hs : Shows cfg P fs c) (mapping : Map Path String) {d' : Disk}
    (hb : d'.bytes = fs.disk.bytes)
    (hmap : ∀ p s, mapping.lookup p = some s → ∃ j, d'.ino p = some j ∧ s = inodeStr j) :
    Shows cfg P ⟨{ fs.cache with fileInodeMapping := mapping }, d'⟩ c := by
  obtain ⟨tbl, hG⟩ := hs.sound.good
  refine ⟨⟨⟨tbl, hG.setMapping mapping⟩, hmap, hs.sound.keys⟩, fun j => ?_, fun j => ?_⟩
  · rw [← hs.size, FS.sizeOf, FS.sizeOf, ← hb]
    rfl
  · have hfile : FS.file cfg ⟨{ fs.cache with fileInodeMapping := mapping }, d'⟩ j
        = fs.file cfg j := by
      rw [FS.file, FS.file, ← hb]
      rfl
    rw [hfile]
    exact hs.file j

/-- An item loses a link; the contents of a file that goes are what the backing file system has. -/
lemma Shows.loseLink (h : OnePage cfg) (hs : Shows cfg P fs c) (hm : fs.metaOf i = some m)
    (hP : P (fs.disk.bytes i) (.bare (fs.disk.bytes i))) :
    Shows cfg P (fs.setCache (fs.cache.loseLink cfg (inodeStr i)))
      (if 1 < m.nlinks then c else Function.update c i (fs.disk.bytes i)) := by
  obtain ⟨tbl, hG⟩ := hs.sound.good
  obtain ⟨hG', hmap, hmeta, hview⟩ := hG.loseLink h hm
  -- the item has a link less, or is gone
  have hmetaOf : ∀ j, (fs.setCache (fs.cache.loseLink cfg (inodeStr i))).metaOf j = if j = i then
      (if 1 < m.nlinks then some { m with nlinks := m.nlinks - 1 } else none) else fs.metaOf j := by
    intro j
    refine (hmeta (inodeStr j)).trans ?_
    by_cases hj : j = i
    · rw [if_pos (congrArg inodeStr hj), if_pos hj]
    · rw [if_neg fun hn => hj (inodeStr_injective hn), if_neg hj]
      rfl
  -- the other files stay, and so does this one while it has a link
  have hfile : ∀ j, (j = i → 1 < m.nlinks) →
      (fs.setCache (fs.cache.loseLink cfg (inodeStr i))).file cfg j = fs.file cfg j := by
    intro j hj
    rw [FS.file, FS.file]
    congr 1
    funext b
    exact (hview (inodeStr j) b).trans (if_neg fun hn => hn.2 (hj (inodeStr_injective hn.1)))
  have hsize : ∀ j, (j = i → 1 < m.nlinks) →
      (fs.setCache (fs.cache.loseLink cfg (inodeStr i))).sizeOf j = fs.sizeOf j := by
    intro j hj
    rw [FS.sizeOf, FS.sizeOf, hmetaOf]
    by_cases hji : j = i
    · rw [if_pos hji, if_pos (hj hji), hji, hm]
      rfl
    · rw [if_neg hji]
      rfl
  refine ⟨⟨hG', fun p s hp => hs.sound.named p s (hmap ▸ hp), fun s hne =>
    hs.sound.keys s fun h0 => hne ?_⟩, fun j => ?_, fun j => ?_⟩
  · refine (hmeta s).trans ?_
    rw [if_neg fun hsi => ?_, h0]
    rw [hsi] at h0
    cases hm.symm.trans h0
  · -- the sizes
    split_ifs with hlast
    · rw [hsize j fun _ => hlast, hs.size]
    · by_cases hj : j = i
      · rw [hj, Function.update_self, FS.sizeOf, hmetaOf, if_pos rfl, if_neg hlast]
        rfl
      · rw [Function.update_of_ne hj, hsize j fun hji => absurd hji hj, hs.size]
  · -- the contents
    split_ifs with hlast
    · rw [hfile j fun _ => hlast]
      exact hs.file j
    · by_cases hj : j = i
      · rw [hj, Function.update_self,
          file_of_metaOf_none (by rw [hmetaOf, if_pos rfl, if_neg hlast])]
        exact hP
      · rw [Function.update_of_ne hj, hfile j fun hji => absurd hji hj]
        exact hs.file j

/-- The links of the other items, when one item loses a link of its file. -/
lemma linked_loseLink (h : OnePage cfg) (hS : fs.Sound cfg) (hm : fs.metaOf i = some m)
    (hi : m.nlinks = fs.disk.nlink i + 1)
    (hL : ∀ j, j ≠ i → ∀ m, fs.metaOf j = some m → m.nlinks = fs.disk.nlink j ∧
      0 < fs.disk.nlink j) :
    (fs.setCache (fs.cache.loseLink cfg (inodeStr i))).Linked := by
  obtain ⟨tbl, hG⟩ := hS.good
  obtain ⟨-, -, hmeta, -⟩ := hG.loseLink h hm
  intro j m' hm'
  have hm' := (hmeta (inodeStr j)).symm.trans hm'
  by_cases hj : j = i
  · subst hj
    rw [if_pos rfl] at hm'
    split_ifs at hm' with hlast
    rw [← Option.some.inj hm']
    change m.nlinks - 1 = fs.disk.nlink j ∧ 0 < fs.disk.nlink j
    omega
  · rw [if_neg fun hn => hj (inodeStr_injective hn)] at hm'
    exact hL j hj m' hm'

/-- Names change without a link. -/
lemma Linked.mapped (hL : fs.Linked) (mapping : Map Path String) {d' : Disk}
    (hn : ∀ j, d'.nlink j = fs.disk.nlink j) :
    FS.Linked ⟨{ fs.cache with fileInodeMapping := mapping }, d'⟩ := fun j m hm => by
  rw [hn]
  exact hL j m hm

/-- **`lfs_symlink`**. -/
theorem Shows.lfsSymlink (cfg : Config) (hs : Shows cfg P fs c) (hL : fs.Linked)
    (hfree : fs.disk.Free path) (newIno : ℕ) :
    ∃ fs', fs.lfsSymlink cfg path newIno = (fs', 0) ∧
      fs'.disk = fs.disk.setEntry path (.symlink newIno) ∧ Shows cfg P fs' c ∧ fs'.Linked := by
  have hino := Disk.ino_symlink fs.disk hfree.1 newIno
  refine ⟨{ fs with disk := fs.disk.setEntry path (.symlink newIno) }, ?_, rfl,
    hs.mapped fs.cache.fileInodeMapping rfl fun p s hp => ?_,
    hL.mapped fs.cache.fileInodeMapping (Disk.nlink_of_ino hino)⟩
  · rw [FS.lfsSymlink, Disk.symlink, if_pos hfree]
  · rw [hino]
    exact hs.sound.named p s hp

/-- **`lfs_link`** of a file that was looked up. -/
theorem Shows.lfsLink (cfg : Config) (hs : Shows cfg P fs c) (hL : fs.Linked)
    (hi : fs.LookedUp source i) (hfree : fs.disk.Free dest) :
    ∃ fs', fs.lfsLink cfg source dest = (fs', 0) ∧ fs'.disk = fs.disk.setEntry dest (.file i) ∧
      Shows cfg P fs' c ∧ fs'.Linked := by
  obtain ⟨m, hm⟩ := Option.isSome_iff_exists.mp hi.cached
  have hdest : fs.disk.ino dest = none := by rw [Disk.ino, hfree.1]
  -- the new name is mapped, and then the link is counted
  set fs1 : FS :=
    ⟨{ fs.cache with fileInodeMapping := fs.cache.fileInodeMapping.set dest (inodeStr i) },
      fs.disk.setEntry dest (.file i)⟩ with hfs1
  have hs1 : Shows cfg P fs1 c := by
    refine hs.mapped _ rfl fun p s hp => ?_
    rw [Map.lookup_set] at hp
    rw [Disk.ino_setEntry]
    split_ifs at hp ⊢
    · exact ⟨i, rfl, (Option.some.inj hp).symm⟩
    · exact hs.sound.named p s hp
  have hm1 : fs1.cache.getContentMetadata (inodeStr i) = some m := hm
  refine ⟨fs1.updateMeta (inodeStr i) { Metadata.new with nlinks := m.nlinks + 1 } [.nlinks],
    ?_, rfl, ⟨hs1.sound.updateMeta _ _, fun j => ?_, fun j => ?_⟩, fun j m' hm' => ?_⟩
  · -- the call itself
    rw [FS.lfsLink, Disk.link, Disk.lookup_of_ino hi.ino]
    dsimp only
    rw [if_pos hfree]
    dsimp only
    rw [hi.inode, if_pos (inodeStr_ne_empty i), Cache.insertInodeMapping, if_pos rfl]
    dsimp only
    rw [show Cache.getContentMetadata { fs.cache with
      fileInodeMapping := fs.cache.fileInodeMapping.set dest (inodeStr i) } (inodeStr i)
        = some m from hm1]
    rfl
  · -- the sizes
    rw [← hs1.size, FS.sizeOf, FS.sizeOf, metaOf_updateMeta]
    split_ifs with hj
    · subst hj
      rw [Option.map_map]
      rfl
    · rfl
  · -- the contents
    rw [file_updateMeta]
    exact hs1.file j
  · -- the links
    rw [metaOf_updateMeta] at hm'
    change m'.nlinks = (fs.disk.setEntry dest (.file i)).nlink j ∧
      _ < (fs.disk.setEntry dest (.file i)).nlink j
    rw [Disk.nlink_setEntry fs.disk hdest]
    split_ifs at hm' ⊢ with hj
    · subst hj
      obtain ⟨m1, h1, rfl⟩ := Option.map_eq_some_iff.mp hm'
      obtain ⟨hn, -⟩ := hL j m hm
      exact ⟨congrArg (· + 1) hn, Nat.succ_pos _⟩
    · exact hL j m' hm'

/-- **`lfs_unlink`** of a file that was looked up. -/
theorem Shows.lfsUnlink (h : OnePage cfg) (hs : Shows cfg P fs c) (hL : fs.Linked)
    (hi : fs.LookedUp path i) (hP : P (fs.disk.bytes i) (.bare (fs.disk.bytes i))) :
    ∃ fs', fs.lfsUnlink cfg path = (fs', 0) ∧ fs'.disk = fs.disk.eraseEntry path ∧
      Shows cfg P fs' (fs.disk.forget path c) ∧ fs'.Linked := by
  obtain ⟨m, hm⟩ := Option.isSome_iff_exists.mp hi.cached
  obtain ⟨hn, hpos⟩ := hL i m hm
  set fs1 : FS := ⟨{ fs.cache with fileInodeMapping := fs.cache.fileInodeMapping.erase path },
    fs.disk.eraseEntry path⟩ with hfs1
  have hs1 : Shows cfg P fs1 c := by
    refine hs.mapped _ rfl fun p s hp => ?_
    rw [Map.lookup_erase'] at hp
    rw [Disk.ino_eraseEntry]
    split_ifs at hp ⊢
    exact hs.sound.named p s hp
  have hm1 : fs1.metaOf i = some m := hm
  have hnlink : ∀ j, fs1.disk.nlink j = if j = i then fs.disk.nlink j - 1 else fs.disk.nlink j := by
    intro j
    refine (Disk.nlink_eraseEntry fs.disk path j).trans (if_congr ?_ rfl rfl)
    rw [hi.ino, Option.some.injEq, eq_comm]
  refine ⟨fs1.setCache (fs1.cache.loseLink cfg (inodeStr i)), ?_, rfl, ?_, ?_⟩
  · rw [FS.lfsUnlink, hi.inode]
    dsimp only
    rw [if_pos (inodeStr_ne_empty i), Cache.removeCachedItem_eq hm, Disk.unlink]
    dsimp only [FS.setCache]
    rw [Disk.lookup_of_ino hi.ino]
    dsimp only
    rw [if_neg (inodeStr_ne_empty i)]
  · have hforget : fs.disk.forget path c = if 1 < m.nlinks then
        c else Function.update c i (fs1.disk.bytes i) := by
      rw [Disk.forget, hi.ino, hn]
      rfl
    rw [hforget]
    exact hs1.loseLink h hm1 hP
  · refine linked_loseLink h hs1.sound hm1 (by rw [hnlink, if_pos rfl]; omega) fun j hj m' hm' => ?_
    rw [hnlink, if_neg hj]
    exact hL j m' hm'

/-- `lfs_unlink` of a symbolic link. -/
theorem Shows.lfsUnlink_symlink (cfg : Config) (hs : Shows cfg P fs c) (hL : fs.Linked) {k : ℕ}
    (hk : fs.disk.entries.lookup path = some (.symlink k)) :
    ∃ fs', fs.lfsUnlink cfg path = (fs', 0) ∧ fs'.disk = fs.disk.eraseEntry path ∧
      Shows cfg P fs' c ∧ fs'.Linked := by
  have hino : fs.disk.ino path = none := by rw [Disk.ino, hk]
  have hsame : ∀ q, (fs.disk.eraseEntry path).ino q = fs.disk.ino q := by
    intro q
    rw [Disk.ino_eraseEntry]
    split_ifs with hq
    · rw [hq, hino]
    · rfl
  refine ⟨{ fs with disk := fs.disk.eraseEntry path }, ?_, rfl,
    hs.mapped fs.cache.fileInodeMapping rfl fun p s hp => ?_,
    hL.mapped fs.cache.fileInodeMapping (Disk.nlink_of_ino hsame)⟩
  · have hinode : fs.cache.getOriginalInode path = "" := by
      rw [Cache.getOriginalInode, hs.sound.inode_of_none hino, Option.getD_none]
    rw [FS.lfsUnlink, hinode]
    dsimp only
    rw [if_neg (by simp), Disk.unlink, hk]
    dsimp only
    rw [if_pos rfl, Cache.removeCachedItem, hs.sound.lookup_empty]
    rfl
  · rw [hsame]
    exact hs.sound.named p s hp

/-- The rename of a file leaves the names in order: the old name goes, and the new one comes. -/
lemma wellFormed_of_renamed {d d' : Disk} (hW : d.WellFormed) (hi : d.ino source = some i)
    (hdest : d.Replaceable i dest)
    (hlook : ∀ q, d'.entries.lookup q
      = ((d.eraseEntry source).setEntry dest (.file i)).entries.lookup q) : d'.WellFormed := by
  have hne := hdest.ne hi
  have h1 : (d.eraseEntry source).WellFormed :=
    hW.change source none (Disk.not_isDir_of_ino hi) (.inl rfl) (Disk.lookup_eraseEntry _ _)
  refine h1.change dest (some (.file i)) ?_ (.inr ?_) fun q => ?_
  · rw [Disk.isDir, Disk.lookup_eraseEntry, if_neg hne.symm]
    exact hdest.not_isDir
  · rw [Disk.isDir, Disk.lookup_eraseEntry, if_neg fun heq => ?_]
    · exact hdest.isDir_dropLast hW
    · exact Disk.not_isDir_of_ino hi (heq ▸ hdest.isDir_dropLast hW)
  · rw [hlook, Disk.lookup_setEntry]

/-- The rename of a file takes a link from the file that had the new name, and from no other. -/
lemma nlink_of_renamed {d d' : Disk} (hi : d.ino source = some i) (hdest : d.Replaceable i dest)
    (hlook : ∀ q, d'.entries.lookup q
      = ((d.eraseEntry source).setEntry dest (.file i)).entries.lookup q) (k : ℕ) :
    d'.nlink k = if d.ino dest = some k then d.nlink k - 1 else d.nlink k := by
  have hne := hdest.ne hi
  have hdest1 : ((d.eraseEntry source).eraseEntry dest).ino dest = none := by
    rw [Disk.ino_eraseEntry, if_pos rfl]
  have hsame : ∀ q, d'.ino q
      = (((d.eraseEntry source).eraseEntry dest).setEntry dest (.file i)).ino q := by
    intro q
    rw [Disk.ino_congr hlook, Disk.ino_setEntry, Disk.ino_setEntry, Disk.ino_eraseEntry,
      Disk.ino_eraseEntry, Disk.ino_eraseEntry]
    split_ifs <;> rfl
  have hpos := Disk.nlink_pos hi
  rw [Disk.nlink_of_ino hsame, Disk.nlink_setEntry _ hdest1, Disk.nlink_eraseEntry,
    Disk.ino_eraseEntry, if_neg hne.symm, Disk.nlink_eraseEntry, hi]
  by_cases hk : k = i
  · -- the file itself loses one name and gets another
    subst hk
    have hnot : d.ino dest ≠ some k := by
      rcases hdest with h | ⟨l, h⟩ | ⟨j, hj, h⟩
      · simp [Disk.ino, h.1]
      · simp [Disk.ino, h]
      · rw [h, ne_eq, Option.some.injEq]
        exact hj
    rw [if_pos rfl, if_neg hnot, if_pos rfl, if_neg hnot]
    omega
  · rw [if_neg hk, if_neg fun heq => hk (Option.some.inj heq).symm]

/-- **`lfs_rename`** of a file, to a free name or onto a symbolic link or another file; both names
were looked up. -/
theorem Shows.lfsRename (h : OnePage cfg) (hs : Shows cfg P fs c) (hW : fs.disk.WellFormed)
    (hL : fs.Linked) (resolve : Path → Resolved) (hi : fs.LookedUp source i)
    (hdest : fs.disk.Replaceable i dest) (hj : ∀ j, fs.disk.ino dest = some j → fs.LookedUp dest j)
    (hP : ∀ j, P (fs.disk.bytes j) (.bare (fs.disk.bytes j))) :
    ∃ fs', fs.lfsRename cfg resolve source dest = (fs', 0) ∧
      (∀ q, fs'.disk.entries.lookup q
        = if q = dest then some (.file i) else if q = source then
          none else fs.disk.entries.lookup q) ∧
      fs'.disk.WellFormed ∧ fs'.disk.bytes = fs.disk.bytes ∧
      Shows cfg P fs' (fs.disk.forget dest c) ∧ fs'.Linked := by
  obtain ⟨d', hd', hbytes, hlook⟩ := Disk.lookup_rename hW hi.ino hdest
  have hino : ∀ q, d'.ino q = if q = dest then some i else if q = source then
      none else fs.disk.ino q := by
    intro q
    rw [Disk.ino_congr hlook, Disk.ino_setEntry, Disk.ino_eraseEntry]
  have hentry : ∀ q, d'.entries.lookup q
      = if q = dest then some (.file i) else if q = source then
        none else fs.disk.entries.lookup q := by
    intro q
    rw [hlook, Disk.lookup_setEntry, Disk.lookup_eraseEntry]
  have hW' := wellFormed_of_renamed hW hi.ino hdest hlook
  set fs1 : FS := ⟨{ fs.cache with
    fileInodeMapping := Map.set (fs.cache.fileInodeMapping.erase source) dest (inodeStr i) },
      d'⟩ with hfs1
  -- the new name is mapped to the file, and the old one is not mapped
  have hs1 : Shows cfg P fs1 c := by
    refine hs.mapped _ hbytes fun p s hp => ?_
    rw [Map.lookup_set, Map.lookup_erase'] at hp
    rw [hino]
    split_ifs at hp ⊢
    · exact ⟨i, rfl, (Option.some.inj hp).symm⟩
    · exact hs.sound.named p s hp
  have hcall : fs.lfsRename cfg resolve source dest
      = (fs1.setCache (fs1.cache.loseLink cfg ((fs.cache.fileInodeMapping.lookup dest).getD "")),
        0) := by
    rw [FS.lfsRename, hi.inode, if_neg (inodeStr_ne_empty i), Cache.renameItem_eq hi.mapped]
    dsimp only [FS.setCache]
    rw [hd', hfs1]
  have hnlink := nlink_of_renamed hi.ino hdest hlook
  cases hino2 : fs.disk.ino dest with
  | none =>
      -- no file had the new name
      have hmap := hs.sound.inode_of_none hino2
      have hnone : fs1.cache.contents.lookup "" = none := hs.sound.lookup_empty
      rw [hmap, Option.getD_none, Cache.loseLink_of_none hnone] at hcall
      refine ⟨fs1, hcall, hentry, hW', hbytes, ?_, hL.mapped _ fun k => ?_⟩
      · rw [Disk.forget, hino2]
        exact hs1
      · rw [hnlink, hino2, if_neg (by simp)]
  | some j =>
      -- the file that had it loses a link, and its item where that was the last
      have hl := hj j hino2
      obtain ⟨m, hm⟩ := Option.isSome_iff_exists.mp hl.cached
      obtain ⟨hn, hpos⟩ := hL j m hm
      have hm1 : fs1.metaOf j = some m := hm
      rw [hl.mapped, Option.getD_some] at hcall
      refine ⟨_, hcall, hentry, hW', hbytes, ?_, ?_⟩
      · have hforget : fs.disk.forget dest c
            = if 1 < m.nlinks then c else Function.update c j (fs1.disk.bytes j) := by
          rw [Disk.forget, hino2, hn, ← hbytes]
        rw [hforget]
        refine hs1.loseLink h hm1 ?_
        change P (d'.bytes j) (.bare (d'.bytes j))
        rw [hbytes]
        exact hP j
      · have hnlink1 : ∀ k, fs1.disk.nlink k = if k = j then
            fs.disk.nlink k - 1 else fs.disk.nlink k := by
          intro k
          refine (hnlink k).trans (if_congr ?_ rfl rfl)
          rw [hino2, Option.some.injEq, eq_comm]
        refine linked_loseLink h hs1.sound hm1 (by rw [hnlink1, if_pos rfl]; omega)
          fun k hk m' hm' => ?_
        rw [hnlink1, if_neg hk]
        exact hL k m' hm'

/-- `lfs_getattr` counts the links that the names make. -/
lemma Linked.getattr (hL : fs.Linked) {r : StatRes} (hi : fs.disk.ino path = some i)
    (hS : fs.Sound cfg) (h : fs.lfsGetattr cfg path = some (fs', r)) :
    fs'.Linked ∧ ∃ st, r = .reg st ∧ st.stIno = i ∧ st.stNlink = fs.disk.nlink i := by
  obtain ⟨fs1, st, hget, hopen, -⟩ := hS.lfsGetattr hi
  rw [hget] at h
  cases h
  refine ⟨fun j m hm => ?_, st, rfl, ?_⟩
  · rw [hopen.disk]
    rw [hopen.metaOf] at hm
    split_ifs at hm with hj
    · subst hj
      refine ⟨?_, Disk.nlink_pos hi⟩
      rw [← Option.some.inj hm]
      cases hmj : fs.metaOf j with
      | none => rfl
      | some m1 => exact (hL j m1 hmj).1
    · exact hL j m hm
  · -- what is cached is counted
    have hmap : (if fs.cache.getOriginalInode path = "" then
        inodeStr i else fs.cache.getOriginalInode path)
        = inodeStr i := by
      split_ifs with he
      · rfl
      · rw [Cache.getOriginalInode] at he ⊢
        cases hs : fs.cache.fileInodeMapping.lookup path with
        | none => rw [hs] at he; exact absurd rfl he
        | some s => rw [hS.lookup_mapping hi hs, Option.getD_some]
    rw [FS.lfsGetattr, lookup_entries_of_ino hi] at hget
    dsimp only at hget
    rw [hmap] at hget
    have hmeta : ∀ fs1 : FS, fs1 = (if fs.cache.getOriginalInode path = "" then
        fs.setCache (fs.cache.insertInodeMapping path (inodeStr i) false) else fs) →
        fs1.cache.getContentMetadata (inodeStr i) = fs.metaOf i := by
      rintro fs1 rfl
      split_ifs <;> rfl
    split at hget
    · obtain ⟨fs2, -, hget⟩ := Option.bind_eq_some_iff.mp hget
      cases hget
      exact ⟨rfl, rfl⟩
    · rename_i m hm
      cases hget
      exact ⟨rfl, (hL i m ((hmeta _ rfl).symm.trans hm)).1⟩

/-- New times of a file that is cached. -/
lemma Shows.setTimes (hs : Shows cfg P fs c) (hL : fs.Linked) (m : Metadata)
    {values : List MetaField} (hv : ∀ v ∈ values, v = .atime ∨ v = .mtime) :
    Shows cfg P (fs.updateMeta (inodeStr i) m values) c ∧
    (fs.updateMeta (inodeStr i) m values).Linked := by
  have hkeep : ∀ (values : List MetaField) (m' : Metadata),
      (∀ v ∈ values, v = .atime ∨ v = .mtime) →
      (values.foldl (Item.updateField m) m').size = m'.size ∧
      (values.foldl (Item.updateField m) m').nlinks = m'.nlinks := by
    intro values
    induction values with
    | nil => exact fun _ _ => ⟨rfl, rfl⟩
    | cons v values ih =>
        intro m' hv
        obtain ⟨h1, h2⟩ := ih (Item.updateField m m' v) fun w hw => hv w (List.mem_cons_of_mem _ hw)
        rw [List.foldl_cons, h1, h2]
        rcases hv v List.mem_cons_self with rfl | rfl
        · exact ⟨rfl, rfl⟩
        · exact ⟨rfl, rfl⟩
  refine ⟨⟨hs.sound.updateMeta _ _, fun j => ?_, fun j => ?_⟩, fun j m' hm' => ?_⟩
  · rw [← hs.size, FS.sizeOf, FS.sizeOf, metaOf_updateMeta]
    split_ifs with hj
    · subst hj
      rw [Option.map_map]
      cases fs.metaOf j with
      | none => rfl
      | some m1 => exact (hkeep values m1 hv).1
    · rfl
  · rw [file_updateMeta]
    exact hs.file j
  · rw [metaOf_updateMeta] at hm'
    split_ifs at hm' with hj
    · subst hj
      obtain ⟨m1, h1, rfl⟩ := Option.map_eq_some_iff.mp hm'
      rw [(hkeep values m1 hv).2]
      exact hL j m1 h1
    · exact hL j m' hm'

/-- A new file at a free name: it is empty, and its inode, which had no name, is not cached. -/
lemma Shows.newFile (hs : Shows cfg P fs c) (hL : fs.Linked) (hnone : fs.disk.ino path = none)
    {newIno : ℕ} (hnew : fs.disk.nlink newIno = 0) {d' : Disk}
    (hentries : d'.entries = (fs.disk.setEntry path (.file newIno)).entries)
    (hbytes : d'.bytes = Function.update fs.disk.bytes newIno []) (hP : P [] (.bare [])) :
    Shows cfg P { fs with disk := d' } (Function.update c newIno []) ∧
      FS.Linked { fs with disk := d' } := by
  have hlook : ∀ q, d'.entries.lookup q = (fs.disk.setEntry path (.file newIno)).entries.lookup q :=
    fun q => by rw [hentries]
  have hino : ∀ q, d'.ino q = if q = path then some newIno else fs.disk.ino q := fun q => by
    rw [Disk.ino_congr hlook, Disk.ino_setEntry]
  have hnlink : ∀ j, d'.nlink j = if j = newIno then fs.disk.nlink j + 1 else fs.disk.nlink j :=
      fun j => by
    rw [Disk.nlink_congr hlook, Disk.nlink_setEntry _ hnone]
  have hmeta : fs.metaOf newIno = none := by
    cases hm : fs.metaOf newIno with
    | none => rfl
    | some m =>
        have hpos := (hL newIno m hm).2
        omega
  set fs1 : FS := { fs with disk := d' } with hfs1
  have hmeta1 : fs1.metaOf newIno = none := hmeta
  refine ⟨⟨⟨hs.sound.good, fun p s hp => ?_, hs.sound.keys⟩, fun j => ?_, fun j => ?_⟩,
    fun j m hm => ?_⟩
  · obtain ⟨k, hk, hsk⟩ := hs.sound.named p s hp
    refine ⟨k, ?_, hsk⟩
    have hpp : p ≠ path := by
      rintro rfl
      rw [hnone] at hk
      cases hk
    exact (hino p).trans ((if_neg hpp).trans hk)
  · -- the sizes
    by_cases hj : j = newIno
    · subst hj
      rw [Function.update_self, FS.sizeOf, hmeta1]
      exact congrArg List.length ((congrFun hbytes j).trans (Function.update_self _ _ _))
    · rw [Function.update_of_ne hj, ← hs.size, FS.sizeOf, FS.sizeOf]
      have hb : fs1.disk.bytes j = fs.disk.bytes j :=
        (congrFun hbytes j).trans (Function.update_of_ne hj _ _)
      rw [hb]
      rfl
  · -- the contents
    have hb : fs1.disk.bytes j = Function.update fs.disk.bytes newIno [] j := congrFun hbytes j
    by_cases hj : j = newIno
    · subst hj
      rw [Function.update_self] at hb ⊢
      rw [file_of_metaOf_none hmeta1, hb]
      exact hP
    · rw [Function.update_of_ne hj] at hb ⊢
      have hfile : fs1.file cfg j = fs.file cfg j := by
        rw [FS.file, FS.file, hb]
      rw [hfile]
      exact hs.file j
  · -- the links
    have hj : j ≠ newIno := by
      rintro rfl
      rw [hmeta1] at hm
      cases hm
    have hn : fs1.disk.nlink j = fs.disk.nlink j := (hnlink j).trans (if_neg hj)
    rw [hn]
    exact hL j m hm

/-- **`lfs_create`** of a free name. -/
theorem Shows.lfsCreate (hs : Shows cfg P fs c) (hL : fs.Linked) (hfree : fs.disk.Free path)
    (flags : Disk.OpenFlags) {newIno : ℕ} (hnew : fs.disk.nlink newIno = 0) (now : Timespec)
    (hP : P [] (.bare [])) :
    ∃ fs' fd, fs.lfsCreate cfg path flags newIno now = some (fs', 0, some fd) ∧
      fs'.disk.entries = (fs.disk.setEntry path (.file newIno)).entries ∧
      fs'.disk.bytes = Function.update fs.disk.bytes newIno [] ∧
      Shows cfg P fs' (Function.update c newIno []) ∧ fs'.Linked := by
  have hnone : fs.disk.ino path = none := by rw [Disk.ino, hfree.1]
  obtain ⟨d', hcreate, hentries, hbytes⟩ : ∃ d', fs.disk.create path flags newIno now
        = some (d', ⟨newIno, flags.readable, flags.writable⟩) ∧
      d'.entries = (fs.disk.setEntry path (.file newIno)).entries ∧
      d'.bytes = Function.update fs.disk.bytes newIno [] := by
    rw [Disk.create, hfree.1]
    dsimp only
    rw [if_pos ⟨hfree, hnew⟩]
    exact ⟨_, rfl, rfl, rfl⟩
  set fs1 : FS := { fs with disk := d' } with hfs1
  obtain ⟨hs1, hL1⟩ : Shows cfg P fs1 (Function.update c newIno []) ∧ fs1.Linked :=
    hs.newFile hL hnone hnew hentries hbytes hP
  have hi1 : fs1.disk.ino path = some newIno := by
    have hlook : ∀ q, d'.entries.lookup q
        = (fs.disk.setEntry path (.file newIno)).entries.lookup q := fun q => by rw [hentries]
    exact (Disk.ino_congr hlook path).trans ((Disk.ino_setEntry _ _ _ _).trans (if_pos rfl))
  -- the attributes are read first, which caches the file
  obtain ⟨fs2, st, hget, -, hopen, hs2⟩ := hs1.getattr hi1
  obtain ⟨hL2, st', heq, hst, -⟩ := hL1.getattr hi1 hs1.sound hget
  obtain rfl := StatRes.reg.inj heq
  have hcached : fs2.cache.hasContentCached (inodeStr newIno) = true := by
    have hsome := (hopen.lookedUp hi1).cached
    rwa [FS.metaOf, Cache.getContentMetadata, Option.isSome_map] at hsome
  have hv : ∀ (a b : Prop) [Decidable a] [Decidable b],
      ∀ v ∈ (if a then [MetaField.atime] else []) ++ (if b then [MetaField.mtime] else []),
        v = .atime ∨ v = .mtime := by
    intro a b _ _ v hv
    rcases List.mem_append.mp hv with hv | hv
    · split_ifs at hv with ha
      · exact .inl (List.mem_singleton.mp hv)
      · cases hv
    · split_ifs at hv with hb
      · exact .inr (List.mem_singleton.mp hv)
      · cases hv
  obtain ⟨hs3, hL3⟩ := hs2.setTimes (i := newIno) hL2 { Metadata.new with atim := now, mtim := now }
    (hv ((!true) = true ∨ flags.readable = true) (flags.writable = true))
  refine ⟨_, ⟨newIno, flags.readable, flags.writable⟩, ?_, ?_, ?_, hs3, hL3⟩
  · rw [FS.lfsCreate, hcreate]
    dsimp only
    rw [show FS.lfsGetattr cfg { fs with disk := d' } path = some (fs2, .reg st) from hget,
      Option.bind_eq_bind, Option.bind_some]
    dsimp only
    rw [hst, hcached]
    rfl
  · rw [← hentries]
    exact congrArg Disk.entries hopen.disk
  · rw [← hbytes]
    exact congrArg Disk.bytes hopen.disk

end FS

end LazyFS
