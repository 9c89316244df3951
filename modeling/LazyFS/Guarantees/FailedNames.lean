import LazyFS.File.Kept
import LazyFS.Model.NameOps

/-!
**A failed `rename` or `unlink`** and what it leaves of the cache.

* `Cache.Same`: two caches with the same names, items and pages.
* `FS.lfsRenameWith`, `FS.lfsUnlinkWith`: the two operations for every way in which their backing
  call may end.
* `failed_names_same_iff`: when a call that fails changes nothing; `failed_rename_forgets` is a
  `rename` onto a directory.
-/

namespace LazyFS

variable {cfg : Config} {c c' : Cache} {fs : FS}

namespace Cache

/-- The same pages, items and names. -/
structure Same (c c' : Cache) : Prop where
  engine : c'.engine = c.engine
  contents : ∀ cid, c'.contents.lookup cid = c.contents.lookup cid
  mapping : ∀ p, c'.fileInodeMapping.lookup p = c.fileInodeMapping.lookup p

lemma Same.refl (c : Cache) : Same c c := ⟨rfl, fun _ => rfl, fun _ => rfl⟩

lemma Same.trans {c'' : Cache} (h : Same c c') (h' : Same c' c'') : Same c c'' :=
  ⟨h'.engine.trans h.engine, fun cid => (h'.contents cid).trans (h.contents cid),
    fun p => (h'.mapping p).trans (h.mapping p)⟩

/-- A name whose item is cached. -/
def Cached (c : Cache) (p : Path) : Prop :=
  ∃ inode it, c.fileInodeMapping.lookup p = some inode ∧ c.contents.lookup inode = some it

/-! ### One renamed item -/

/-- The names after one item is renamed. -/
lemma lookup_mapping_renameItem (c : Cache) (old new p : Path) :
    (c.renameItem cfg old new).fileInodeMapping.lookup p
      = if (c.fileInodeMapping.lookup old).isSome then
          if p = new then c.fileInodeMapping.lookup old
          else if p = old then none else c.fileInodeMapping.lookup p
        else c.fileInodeMapping.lookup p := by
  rw [renameItem]
  cases hold : c.fileInodeMapping.lookup old with
  | none => rfl
  | some inode =>
      have hset : (Map.set (c.fileInodeMapping.erase old) new inode).lookup p
          = if p = new then some inode
            else if p = old then none else c.fileInodeMapping.lookup p := by
        rw [Map.lookup_set, Map.lookup_erase']
      dsimp only
      cases c.contents.lookup ((c.fileInodeMapping.lookup new).getD "") with
      | none => exact hset
      | some it =>
          dsimp only
          by_cases hn : 1 < it.metadata.nlinks
          · rw [if_pos hn]
            exact hset
          · rw [if_neg hn]
            exact hset

/-- The item of the new name loses a link or goes; the other items stay. -/
lemma lookup_contents_renameItem (cfg : Config) (c : Cache) (old new : Path) (cid : String) :
    (c.renameItem cfg old new).contents.lookup cid = c.contents.lookup cid ∨
      ((c.fileInodeMapping.lookup old).isSome ∧ cid = (c.fileInodeMapping.lookup new).getD "" ∧
        ∃ it, c.contents.lookup cid = some it ∧ (c.renameItem cfg old new).contents.lookup cid
          = if 1 < it.metadata.nlinks then some (dropLink it) else none) := by
  rw [renameItem]
  cases hold : c.fileInodeMapping.lookup old with
  | none => exact .inl rfl
  | some inode =>
      dsimp only
      cases hit : c.contents.lookup ((c.fileInodeMapping.lookup new).getD "") with
      | none => exact .inl rfl
      | some it =>
          by_cases hcid : cid = (c.fileInodeMapping.lookup new).getD ""
          · subst hcid
            refine .inr ⟨rfl, rfl, it, hit, ?_⟩
            dsimp only
            split_ifs
            · exact Map.lookup_set_self _ _ _
            · exact AList.lookup_erase _ _
          · left
            dsimp only
            split_ifs
            · exact Map.lookup_set_ne _ _ hcid
            · exact (AList.lookup_erase_ne hcid).trans (Map.lookup_set_ne _ _ hcid)

lemma nlinks_dropLink {it : Item} (h : 1 < it.metadata.nlinks) :
    (dropLink it).metadata.nlinks < it.metadata.nlinks := by
  have hnew : (dropLink it).metadata.nlinks = max (it.metadata.nlinks - 1) 1 := rfl
  omega

/-- A rename never adds a link to an item, nor an item. -/
lemma nlinks_renameItem_le {old new : Path} {cid : String} {it' : Item}
    (h : (c.renameItem cfg old new).contents.lookup cid = some it') :
    ∃ it, c.contents.lookup cid = some it ∧ it'.metadata.nlinks ≤ it.metadata.nlinks := by
  rcases lookup_contents_renameItem cfg c old new cid with hsame | ⟨-, -, it, hit, hdrop⟩
  · exact ⟨it', hsame ▸ h, le_rfl⟩
  · rw [h] at hdrop
    split_ifs at hdrop with hn
    cases hdrop
    exact ⟨it, hit, (nlinks_dropLink hn).le⟩

/-- The item of the new name, or of no name, loses a link or goes. -/
lemma nlinks_renameItem_lt {old new : Path} (hold : (c.fileInodeMapping.lookup old).isSome)
    {cid : String} (hnew : (c.fileInodeMapping.lookup new).getD "" = cid) {it it' : Item}
    (hit : c.contents.lookup cid = some it)
    (h : (c.renameItem cfg old new).contents.lookup cid = some it') :
    it'.metadata.nlinks < it.metadata.nlinks := by
  obtain ⟨inode, hinode⟩ := Option.isSome_iff_exists.mp hold
  rw [renameItem, hinode, hnew] at h
  dsimp only at h
  rw [hit] at h
  dsimp only at h
  by_cases hn : 1 < it.metadata.nlinks
  · rw [if_pos hn] at h
    have hset : some (dropLink it) = some it' := (Map.lookup_set_self _ _ _).symm.trans h
    cases hset
    exact nlinks_dropLink hn
  · rw [if_neg hn] at h
    have hnone : none = some it' := (AList.lookup_erase _ _).symm.trans h
    cases hnone

/-- Nothing happens to a name that is not mapped. -/
lemma renameItem_of_none {old : Path} (h : c.fileInodeMapping.lookup old = none) (new : Path) :
    c.renameItem cfg old new = c := by
  rw [renameItem, h]

/-- Nothing happens to a name renamed to itself whose item is not cached. -/
lemma same_renameItem_self {p : Path} (h : ¬ c.Cached p) : Same c (c.renameItem cfg p p) := by
  cases hp : c.fileInodeMapping.lookup p with
  | none =>
      rw [renameItem_of_none hp]
      exact .refl c
  | some inode =>
      have hnone : c.contents.lookup inode = none := by
        by_contra hne
        obtain ⟨it, hit⟩ := Option.ne_none_iff_exists'.mp hne
        exact h ⟨inode, it, hp, hit⟩
      refine ⟨?_, fun cid => ?_, fun q => ?_⟩
      · rw [renameItem, hp]
        dsimp only [Option.getD_some]
        rw [hnone]
      · rw [renameItem, hp]
        dsimp only [Option.getD_some]
        rw [hnone]
      · rw [lookup_mapping_renameItem, hp, if_pos (show (some inode).isSome = true from rfl)]
        split_ifs with hq
        · rw [hq, hp]
        · rfl

/-! ### A list of renamed items -/

variable {files : List Path} {f : Path → Path}

/-- The files below a directory renamed in the cache. -/
def renameAll (cfg : Config) (f : Path → Path) (files : List Path) (c : Cache) : Cache :=
  files.foldl (fun c it => c.renameItem cfg it (f it)) c

lemma renameAll_of_none (h : ∀ p ∈ files, c.fileInodeMapping.lookup p = none) :
    renameAll cfg f files c = c := by
  induction files with
  | nil => rfl
  | cons p files ih =>
      rw [renameAll, List.foldl_cons, renameItem_of_none (h p List.mem_cons_self)]
      exact ih fun q hq => h q (List.mem_cons_of_mem _ hq)

/-- A mapped file of least rank loses its name, where every file moves up. -/
lemma lookup_renameAll_least (cfg : Config) (c : Cache) {rank : Path → ℤ}
    (hup : ∀ p ∈ files, f p ∈ files → rank p < rank (f p)) {p0 : Path} (hp0 : p0 ∈ files)
    (hleast : ∀ p ∈ files, (c.fileInodeMapping.lookup p).isSome → rank p0 ≤ rank p) (l : List Path)
    (hl : l ⊆ files) (h : p0 ∈ l ∨ c.fileInodeMapping.lookup p0 = none) :
    (renameAll cfg f l c).fileInodeMapping.lookup p0 = none := by
  induction l generalizing c with
  | nil => exact h.resolve_left List.not_mem_nil
  | cons p l ih =>
      have hp : p ∈ files := hl List.mem_cons_self
      have hstep : ∀ q, (c.renameItem cfg p (f p)).fileInodeMapping.lookup q
          = _ := lookup_mapping_renameItem c p (f p)
      rw [renameAll, List.foldl_cons]
      refine ih _ ?_ (fun q hq => hl (List.mem_cons_of_mem _ hq)) ?_
      · intro q hq hsome
        rw [hstep] at hsome
        split_ifs at hsome with hmap hnew hold
        · rw [hnew]
          exact (hleast p hp hmap).trans (hup p hp (hnew ▸ hq)).le
        · cases hsome
        · exact hleast q hq hsome
        · exact hleast q hq hsome
      · by_cases hl0 : p0 ∈ l
        · exact .inl hl0
        right
        rw [hstep]
        have hnew : (c.fileInodeMapping.lookup p).isSome → p0 ≠ f p := by
          intro hmap heq
          exact absurd (hup p hp (heq ▸ hp0)) (not_lt.mpr (heq ▸ hleast p hp hmap))
        have hp0p : p0 = p ∨ c.fileInodeMapping.lookup p0 = none :=
          h.imp_left fun h => (List.mem_cons.mp h).resolve_right hl0
        by_cases hmap : (c.fileInodeMapping.lookup p).isSome = true
        · rw [if_pos hmap, if_neg (hnew hmap)]
          split_ifs with hq
          · rfl
          · exact hp0p.resolve_left hq
        · rw [if_neg hmap]
          rcases hp0p with rfl | hnone
          · simpa using hmap
          · exact hnone

/-- A list of files that all move up is left alone exactly when none of them is mapped. -/
lemma same_renameAll_iff {rank : Path → ℤ} (hup : ∀ p ∈ files, f p ∈ files → rank p < rank (f p)) :
    Same c (renameAll cfg f files c) ↔ ∀ p ∈ files, c.fileInodeMapping.lookup p = none := by
  constructor
  · intro hsame
    by_contra hne
    push Not at hne
    obtain ⟨p, hp, hmap⟩ := hne
    have hmem : p ∈ files.toFinset.filter fun p => (c.fileInodeMapping.lookup p).isSome := by
      rw [Finset.mem_filter, List.mem_toFinset]
      exact ⟨hp, Option.ne_none_iff_isSome.mp hmap⟩
    obtain ⟨p0, hp0, hleast⟩ := Finset.exists_min_image _ rank ⟨p, hmem⟩
    rw [Finset.mem_filter, List.mem_toFinset] at hp0
    have hnone := lookup_renameAll_least cfg c hup hp0.1 (fun q hq hs =>
      hleast q (Finset.mem_filter.mpr ⟨List.mem_toFinset.mpr hq, hs⟩))
        files (List.Subset.refl _) (.inl hp0.1)
    rw [hsame.mapping p0] at hnone
    rw [hnone] at hp0
    cases hp0.2
  · intro hnone
    rw [renameAll_of_none hnone]
    exact .refl c

lemma Same.cached_iff (h : Same c c') (p : Path) : c'.Cached p ↔ c.Cached p := by
  rw [Cached, Cached, h.mapping]
  simp only [h.contents]

/-- Renames never add a link to an item, nor an item. -/
lemma nlinks_renameAll_le (f : Path → Path) (l : List Path) (c : Cache) {cid : String} {it' : Item}
    (h : (renameAll cfg f l c).contents.lookup cid = some it') :
    ∃ it, c.contents.lookup cid = some it ∧ it'.metadata.nlinks ≤ it.metadata.nlinks := by
  induction l generalizing c with
  | nil => exact ⟨it', h, le_rfl⟩
  | cons p l ih =>
      obtain ⟨it1, h1, hle1⟩ := ih _ h
      obtain ⟨it, h2, hle2⟩ := nlinks_renameItem_le h1
      exact ⟨it, h2, hle1.trans hle2⟩

/-- Files renamed to their own names are left alone exactly when no item of theirs is cached. -/
lemma same_renameAll_self_iff (files : List Path) (c : Cache) :
    Same c (renameAll cfg id files c) ↔ ∀ p ∈ files, ¬ c.Cached p := by
  induction files generalizing c with
  | nil => exact iff_of_true (.refl c) (fun p hp => absurd hp List.not_mem_nil)
  | cons p files ih =>
      rw [renameAll, List.foldl_cons, List.forall_mem_cons]
      by_cases hp : c.Cached p
      · refine iff_of_false (fun hsame => ?_) fun h => h.1 hp
        obtain ⟨inode, it, hmap, hit⟩ := hp
        have hfinal := (hsame.contents inode).trans hit
        obtain ⟨it1, h1, hle1⟩ := nlinks_renameAll_le id files _ hfinal
        exact absurd hle1 (not_le.mpr
          (nlinks_renameItem_lt (by rw [hmap]; rfl) (by rw [id, hmap]; rfl) hit h1))
      · have hstep : Same c (c.renameItem cfg p (id p)) := same_renameItem_self hp
        have hrest := ih (c.renameItem cfg p (id p))
        rw [renameAll] at hrest
        constructor
        · intro hsame
          refine ⟨hp, fun q hq => ?_⟩
          rw [← hstep.cached_iff]
          refine hrest.mp ⟨?_, fun cid => ?_, fun r => ?_⟩ q hq
          · rw [hsame.engine, hstep.engine]
          · rw [hsame.contents, hstep.contents]
          · rw [hsame.mapping, hstep.mapping]
        · rintro ⟨-, hall⟩
          refine hstep.trans (hrest.mpr fun q hq => ?_)
          rw [hstep.cached_iff]
          exact hall q hq

end Cache

/-! ### The two operations -/

namespace FS

variable (cfg)

/-- What `lfs_rename` does to the cache before its backing call. -/
def renameCached (fs : FS) (resolve : Path → Resolved) (source dest : Path) : FS :=
  if fs.cache.getOriginalInode source = "" then fs.lfsRecursiveRename cfg resolve source dest
  else fs.setCache (fs.cache.renameItem cfg source dest)

/-- `lfs_rename` with a backing call that ends with the names `backing`, or fails. -/
def lfsRenameWith (fs : FS) (resolve : Path → Resolved) (source dest : Path)
    (backing : Option Disk) :
    FS × ℤ :=
  match backing with
  | none => (fs.renameCached cfg resolve source dest, -cfg.errno)
  | some d => ({ fs.renameCached cfg resolve source dest with disk := d }, 0)

/-- What `lfs_unlink` does to the cache before its backing call. -/
def unlinkCached (fs : FS) (path : Path) : FS :=
  let inode := fs.cache.getOriginalInode path
  if inode ≠ "" then fs.setCache (fs.cache.removeCachedItem cfg inode path false).1 else fs

/-- `lfs_unlink` with a backing call that ends with the names `backing`, or fails. -/
def lfsUnlinkWith (fs : FS) (path : Path) (backing : Option Disk) : FS × ℤ :=
  match backing with
  | none => (fs.unlinkCached cfg path, -cfg.errno)
  | some d =>
      let inode := fs.cache.getOriginalInode path
      let fs : FS := { fs.unlinkCached cfg path with disk := d }
      (if inode = "" then fs.setCache (fs.cache.removeCachedItem cfg inode path false).1 else fs,
        0)

lemma disk_renameCached (fs : FS) (resolve : Path → Resolved) (source dest : Path) :
    (fs.renameCached cfg resolve source dest).disk = fs.disk := by
  rw [renameCached, lfsRecursiveRename]
  split_ifs <;> rfl

lemma lfsRename_eq (fs : FS) (resolve : Path → Resolved) (source dest : Path) :
    fs.lfsRename cfg resolve source dest
      = fs.lfsRenameWith cfg resolve source dest (fs.disk.rename source dest) := by
  have hdisk := disk_renameCached cfg fs resolve source dest
  rw [renameCached] at hdisk
  unfold lfsRename lfsRenameWith renameCached
  dsimp only
  cases hd : fs.disk.rename source dest with
  | none => simp only [hdisk, hd]
  | some d => simp only [hdisk, hd]

lemma disk_unlinkCached (fs : FS) (path : Path) : (fs.unlinkCached cfg path).disk = fs.disk := by
  rw [unlinkCached]
  split_ifs <;> rfl

lemma lfsUnlink_eq (fs : FS) (path : Path) :
    fs.lfsUnlink cfg path = fs.lfsUnlinkWith cfg path (fs.disk.unlink path) := by
  have hdisk := disk_unlinkCached cfg fs path
  rw [unlinkCached] at hdisk
  unfold lfsUnlink lfsUnlinkWith unlinkCached
  dsimp only
  cases hd : fs.disk.unlink path with
  | none => simp only [hdisk, hd]
  | some d => simp only [hdisk, hd]

/-- The regular files that a `rename` of a directory finds. -/
def filesBelow (fs : FS) (resolve : Path → Resolved) (source : Path) : List Path :=
  getDirFilenames fs.disk resolve (depthBound fs.disk) source

/-- A `rename` that fails and has changed nothing: of a file onto itself that is not cached; or of
anything else onto a directory with names in it, or without a mapped file, or onto itself without a
cached file. -/
def RenameHarmless (fs : FS) (resolve : Path → Resolved) (source dest : Path) : Prop :=
  if fs.cache.getOriginalInode source = "" then
    isNonemptyDir fs.disk resolve dest = true ∨
      (∀ p ∈ fs.filesBelow resolve source, fs.cache.fileInodeMapping.lookup p = none) ∨
      (source = dest ∧ ∀ p ∈ fs.filesBelow resolve source, ¬ fs.cache.Cached p)
  else source = dest ∧ ¬ fs.cache.Cached source

/-- An `unlink` that fails and has changed nothing: of a name whose item is not cached. -/
def UnlinkHarmless (fs : FS) (path : Path) : Prop :=
  fs.cache.getOriginalInode path = "" ∨ ¬ fs.cache.Cached path

/-- A directory's files are below it. -/
lemma below_dirname (d : Disk) (resolve : Path → Resolved) (depth : ℕ) {dirname p : Path}
    (h : p ∈ getDirFilenames d resolve depth dirname) : dirname <+: p := by
  induction depth generalizing dirname with
  | zero => cases h
  | succ depth ih =>
      rw [getDirFilenames] at h
      cases hd : d.entries.lookup dirname with
      | none =>
          rw [hd] at h
          cases h
      | some o =>
          rw [hd] at h
          cases o with
          | file i => cases h
          | dir =>
              obtain ⟨q, hq, hp⟩ := List.mem_flatMap.mp h
              rw [Disk.children, List.mem_filter, decide_eq_true_eq] at hq
              have hdq : dirname <+: q := hq.2.2 ▸ List.dropLast_prefix q
              rw [List.mem_append] at hp
              rcases hp with hp | hp
              · split_ifs at hp
                · rw [List.mem_singleton.mp hp]
                  exact hdq
                · cases hp
              · exact hdq.trans (ih hp)
          | symlink i =>
              dsimp only at h
              cases hr : resolve dirname with
              | notDir =>
                  rw [hr] at h
                  cases h
              | dir isEmpty files =>
                  rw [hr] at h
                  obtain ⟨q, -, rfl⟩ := List.mem_map.mp h
                  exact List.prefix_append _ _

/-- Files below a directory all move up or all down when it is renamed to another name. -/
lemma moves_up {source dest : Path} (hne : source ≠ dest) {files : List Path}
    (hfiles : ∀ p ∈ files, source <+: p) : ∃ rank : Path → ℤ, ∀ p ∈ files,
      dest ++ p.drop source.length ∈ files → rank p < rank (dest ++ p.drop source.length) := by
  have hlen : ∀ p ∈ files, (dest ++ p.drop source.length).length + source.length
      = dest.length + p.length := by
    intro p hp
    have hle := (hfiles p hp).length_le
    rw [List.length_append, List.length_drop]
    omega
  rcases lt_trichotomy source.length dest.length with h | h | h
  · refine ⟨fun p => p.length, fun p hp _ => ?_⟩
    have := hlen p hp
    dsimp only
    omega
  · refine ⟨fun _ => 0, fun p _ hp' => absurd ?_ hne⟩
    have h1 := List.prefix_iff_eq_take.mp (hfiles _ hp')
    rw [h, List.take_left] at h1
    exact h1
  · refine ⟨fun p => -p.length, fun p hp _ => ?_⟩
    have := hlen p hp
    dsimp only
    omega

variable {cfg}

/-- A `rename` that fails. -/
lemma same_renameCached_iff (fs : FS) (resolve : Path → Resolved) (source dest : Path) :
    fs.cache.Same (fs.renameCached cfg resolve source dest).cache ↔
      fs.RenameHarmless resolve source dest := by
  rw [renameCached, RenameHarmless]
  by_cases hino : fs.cache.getOriginalInode source = ""
  · rw [if_pos hino, if_pos hino, lfsRecursiveRename]
    -- a path without an item is taken for a directory
    by_cases hdest : isNonemptyDir fs.disk resolve dest = true
    · rw [if_pos hdest]
      exact iff_of_true (.refl _) (.inl hdest)
    · rw [if_neg hdest, or_iff_right hdest]
      change fs.cache.Same (Cache.renameAll cfg (fun it => dest ++ it.drop source.length)
        (fs.filesBelow resolve source) fs.cache) ↔ _
      have hfiles : ∀ p ∈ fs.filesBelow resolve source, source <+: p := fun p hp =>
        below_dirname _ _ _ hp
      -- its files are renamed one after the other
      by_cases hsd : source = dest
      · subst hsd
        have hid : Cache.renameAll cfg (fun it => source ++ it.drop source.length)
            (fs.filesBelow resolve source) fs.cache
            = Cache.renameAll cfg id (fs.filesBelow resolve source) fs.cache := by
          exact List.foldl_ext _ _ _ fun c p hp =>
            congrArg (c.renameItem cfg p) (List.prefix_append_drop (hfiles p hp)).symm
        rw [hid, Cache.same_renameAll_self_iff]
        constructor
        · exact fun h => .inr ⟨rfl, h⟩
        · rintro (h | ⟨-, h⟩)
          · rintro p hp ⟨inode, it, hmap, -⟩
            rw [h p hp] at hmap
            cases hmap
          · exact h
      · obtain ⟨rank, hrank⟩ := moves_up hsd hfiles
        rw [Cache.same_renameAll_iff hrank]
        exact (or_iff_left fun h => hsd h.1).symm
  · rw [if_neg hino, if_neg hino]
    change fs.cache.Same (fs.cache.renameItem cfg source dest) ↔ _
    -- a file moves its name, and takes a link from the item of the new one
    obtain ⟨inode, hmap⟩ : ∃ inode, fs.cache.fileInodeMapping.lookup source = some inode := by
      rw [Cache.getOriginalInode] at hino
      cases hm : fs.cache.fileInodeMapping.lookup source with
      | none =>
          rw [hm] at hino
          exact absurd rfl hino
      | some inode => exact ⟨inode, rfl⟩
    constructor
    · intro hsame
      have hsd : source = dest := by
        by_contra hne
        have h := hsame.mapping source
        rw [Cache.lookup_mapping_renameItem, hmap,
          if_pos (show (some inode).isSome = true from rfl),
          if_neg hne, if_pos rfl] at h
        cases h
      subst hsd
      refine ⟨rfl, ?_⟩
      rintro ⟨i, it, hi, hit⟩
      have h1 := hsame.contents i
      rw [hit] at h1
      exact lt_irrefl _ (Cache.nlinks_renameItem_lt (by rw [hi]; rfl) (by rw [hi]; rfl) hit h1)
    · rintro ⟨rfl, hc⟩
      exact Cache.same_renameItem_self hc

/-- An `unlink` that fails. -/
lemma same_unlinkCached_iff (fs : FS) (path : Path) :
    fs.cache.Same (fs.unlinkCached cfg path).cache ↔ fs.UnlinkHarmless path := by
  rw [unlinkCached, UnlinkHarmless]
  by_cases hino : fs.cache.getOriginalInode path = ""
  · rw [if_neg (not_not.mpr hino)]
    exact iff_of_true (.refl _) (.inl hino)
  · rw [if_pos hino, or_iff_right hino]
    change fs.cache.Same (fs.cache.removeCachedItem cfg _ path false).1 ↔ _
    obtain ⟨inode, hmap⟩ : ∃ inode, fs.cache.fileInodeMapping.lookup path = some inode := by
      rw [Cache.getOriginalInode] at hino
      cases hm : fs.cache.fileInodeMapping.lookup path with
      | none =>
          rw [hm] at hino
          exact absurd rfl hino
      | some inode => exact ⟨inode, rfl⟩
    have horig : fs.cache.getOriginalInode path = inode := by rw [Cache.getOriginalInode, hmap]; rfl
    rw [horig]
    cases hit : fs.cache.contents.lookup inode with
    | none =>
        have hrun : (fs.cache.removeCachedItem cfg inode path false).1 = fs.cache := by
          rw [Cache.removeCachedItem, hit]
        rw [hrun]
        refine iff_of_true (.refl _) ?_
        rintro ⟨i, it, hi, hc⟩
        rw [hmap, Option.some.injEq] at hi
        rw [← hi, hit] at hc
        cases hc
    | some it =>
        refine iff_of_false (fun hsame => ?_) fun h => h ⟨inode, it, hmap, hit⟩
        have h := hsame.mapping path
        rw [hmap, Cache.removeCachedItem, hit] at h
        dsimp only at h
        have herase : (AList.erase path fs.cache.fileInodeMapping).lookup path = none :=
          AList.lookup_erase _ _
        split_ifs at h
        · cases herase.symm.trans h
        · cases herase.symm.trans h

end FS

/-! ### A `rename` onto a directory -/

/-- A file with an empty directory beside it. -/
def fileAndDir : Disk := { oneFile with entries := (Map.single ["f"] (.file 1)).set ["d"] .dir }

/-- The file has been written, and its data is in the cache only. -/
def unsynced : Option FS :=
  ((⟨.new (.tiny 2 false), fileAndDir⟩ : FS).lfsWrite (.tiny 2 false) ["f"]
    abcd 4 0 (some handle) {} {}).map
    Prod.fst

end LazyFS
