import LazyFS.Guarantees.FailedNames

/-!
**A directory renamed** to a name that is absent or an empty directory.

* `FS.Agrees`: every mapped path names the regular file whose inode it is mapped to.
* `FS.Carried`: the files below the directory go along, and no item is touched.
* `FS.mem_getDirFilenames`: the listing reaches every regular file below a directory.
* `carried_iff`: the files go along and no item is touched, unless an item is cached under the empty
  content id, which a renamed file then takes for the item of its new name.
-/

namespace LazyFS

variable {cfg : Config} {c : Cache} {fs : FS} {source dest : Path}

/-! ### Names below a directory -/

namespace Disk

variable {d : Disk}

/-- A name stands between another one and what is below it, as a directory. -/
lemma WellFormed.isDir_of_below (h : d.WellFormed) {p s : Path} (hs : s ≠ []) {o : Obj}
    (ho : d.entries.lookup (p ++ s) = some o) : d.isDir p := by
  induction s using List.reverseRecOn generalizing o with
  | nil => exact absurd rfl hs
  | append_singleton s x ih =>
      have hparent := h.parent (p ++ (s ++ [x])) o ho
      rw [← List.append_assoc, List.dropLast_concat] at hparent
      rcases eq_or_ne s [] with rfl | hne
      · rwa [List.append_nil] at hparent
      · exact ih hne hparent

lemma lookup_of_ino {p : Path} {i : ℕ} (h : d.ino p = some i) :
    d.entries.lookup p = some (.file i) := by
  rw [ino] at h
  split at h
  · rw [← Option.some.inj h]
    assumption
  · cases h

lemma not_isDir_of_ino {p : Path} {i : ℕ} (h : d.ino p = some i) : ¬ d.isDir p := fun hd => by
  rw [isDir, lookup_of_ino h] at hd
  cases hd

lemma mem_children {p : Path} {x : String} {o : Obj} (h : d.entries.lookup (p ++ [x]) = some o) :
    p ++ [x] ∈ d.children p := by
  rw [children, List.mem_filter, decide_eq_true_eq]
  exact ⟨List.mem_map_of_mem (Map.mem_toList.mpr h), by simp, List.dropLast_concat⟩

/-- Nothing is below a name that is absent or an empty directory. -/
lemma WellFormed.lookup_below (h : d.WellFormed) {p s : Path} (hs : s ≠ [])
    (hp : d.entries.lookup p = none ∨ d.children p = []) : d.entries.lookup (p ++ s) = none := by
  cases ho : d.entries.lookup (p ++ s) with
  | none => rfl
  | some o =>
      rcases hp with hp | hp
      · have hdir := h.isDir_of_below hs ho
        rw [isDir, hp] at hdir
        cases hdir
      · obtain ⟨x, s, rfl⟩ := List.exists_cons_of_ne_nil hs
        obtain ⟨o', ho'⟩ : ∃ o', d.entries.lookup (p ++ [x]) = some o' := by
          rcases eq_or_ne s [] with rfl | hne
          · exact ⟨o, ho⟩
          · refine ⟨.dir, h.isDir_of_below hne (o := o) ?_⟩
            rwa [List.append_assoc]
        have hmem := mem_children ho'
        rw [hp] at hmem
        cases hmem

end Disk

namespace FS

/-- **The listing** reaches every regular file below a directory. -/
lemma mem_getDirFilenames {d : Disk} (hW : d.WellFormed) (resolve : Path → Resolved) {depth : ℕ}
    {dirname s : Path} (hs : s ≠ []) (hdepth : s.length ≤ depth) {i : ℕ}
    (hi : d.ino (dirname ++ s) = some i) :
    dirname ++ s ∈ getDirFilenames d resolve depth dirname := by
  induction depth generalizing dirname s with
  | zero => exact absurd (List.length_eq_zero_iff.mp (Nat.le_zero.mp hdepth)) hs
  | succ depth ih =>
      have hdir : d.entries.lookup dirname = some .dir :=
        hW.isDir_of_below hs (Disk.lookup_of_ino hi)
      obtain ⟨x, s, rfl⟩ := List.exists_cons_of_ne_nil hs
      rw [getDirFilenames, hdir]
      rw [List.mem_flatMap]
      rcases eq_or_ne s [] with rfl | hne
      · refine ⟨dirname ++ [x], Disk.mem_children (Disk.lookup_of_ino hi), ?_⟩
        rw [if_pos (by rw [hi]; rfl)]
        exact List.mem_append_left _ (List.mem_singleton_self _)
      · have hsplit : dirname ++ x :: s = (dirname ++ [x]) ++ s := by simp
        rw [hsplit] at hi ⊢
        have hchild : d.isDir (dirname ++ [x]) := hW.isDir_of_below hne (Disk.lookup_of_ino hi)
        refine ⟨dirname ++ [x], Disk.mem_children hchild, List.mem_append_right _ (ih hne ?_ hi)⟩
        rw [List.length_cons] at hdepth
        exact Nat.le_of_succ_le_succ hdepth

/-- Every name is shorter than the bound on the depth. -/
lemma length_le_depthBound {d : Disk} {p : Path} {o : Obj} (h : d.entries.lookup p = some o) :
    p.length ≤ depthBound d := by
  have hmem : p.length + 1 ∈ d.entries.toList.map fun e => e.1.length + 1 :=
    List.mem_map.mpr ⟨(p, o), Map.mem_toList.mpr h, rfl⟩
  have hle := List.single_le_sum (fun x _ => Nat.zero_le x) _ hmem
  rw [depthBound]
  omega

/-- The regular files below a directory are found. -/
lemma mem_filesBelow (hW : fs.disk.WellFormed) (resolve : Path → Resolved) {s : Path}
    (hs : s ≠ []) {i : ℕ} (hi : fs.disk.ino (source ++ s) = some i) :
    source ++ s ∈ fs.filesBelow resolve source := by
  refine mem_getDirFilenames hW resolve hs ?_ hi
  have hle := length_le_depthBound (Disk.lookup_of_ino hi)
  rw [List.length_append] at hle
  omega

end FS

/-! ### A list of files renamed -/

namespace Cache

/-- A file whose new name is not mapped takes no item away, when none has the empty content id. -/
lemma keeps_renameItem {old new : Path} (hnew : c.fileInodeMapping.lookup new = none)
    (hnone : c.contents.lookup "" = none) :
    (c.renameItem cfg old new).engine = c.engine ∧ (c.renameItem cfg old new).contents
      = c.contents := by
  rw [renameItem, hnew]
  split
  · exact ⟨rfl, rfl⟩
  · dsimp only [Option.getD_none]
    rw [hnone]
    exact ⟨rfl, rfl⟩

/-- The mapped files of a list have new names that are not mapped, and that are no files of the
list. -/
structure Clear (c : Cache) (f : Path → Path) (l : List Path) : Prop where
  inj : ∀ p ∈ l, ∀ q ∈ l, f p = f q → p = q
  apart : ∀ p ∈ l, (c.fileInodeMapping.lookup p).isSome → f p ∉ l
  free : ∀ p ∈ l, (c.fileInodeMapping.lookup p).isSome → c.fileInodeMapping.lookup (f p) = none

variable {f : Path → Path} {p : Path} {l : List Path}

/-- The rest of the list after its first file is renamed. -/
lemma Clear.tail (h : c.Clear f (p :: l)) (cfg : Config) :
    (c.renameItem cfg p (f p)).Clear f l := by
  have hp : p ∈ p :: l := List.mem_cons_self
  have hmem : ∀ {q}, q ∈ l → q ∈ p :: l := List.mem_cons_of_mem _
  have hold : ∀ q ∈ l, ((c.renameItem cfg p (f p)).fileInodeMapping.lookup q).isSome →
      (c.fileInodeMapping.lookup q).isSome ∧ (q ≠ p ∨ c.fileInodeMapping.lookup p = none) := by
    intro q hq hsome
    rw [lookup_mapping_renameItem] at hsome
    split_ifs at hsome with hmap hqf hqp
    · exact absurd (hqf ▸ hmem hq) (h.apart p hp hmap)
    · cases hsome
    · exact ⟨hsome, .inl hqp⟩
    · exact ⟨hsome, .inr (by simpa using hmap)⟩
  refine ⟨fun q hq r hr => h.inj q (hmem hq) r (hmem hr), fun q hq hsome hin => ?_,
    fun q hq hsome => ?_⟩
  · exact h.apart q (hmem hq) (hold q hq hsome).1 (hmem hin)
  · obtain ⟨hqmap, hne⟩ := hold q hq hsome
    have hfree := h.free q (hmem hq) hqmap
    rw [lookup_mapping_renameItem]
    split_ifs with hmap hqf hqp
    · refine absurd (h.inj q (hmem hq) p hp hqf) (hne.resolve_right fun hnone => ?_)
      rw [hnone] at hmap
      cases hmap
    · rfl
    · exact hfree
    · exact hfree

/-- The names after a list of files is renamed. -/
lemma lookup_renameAll (cfg : Config) (h : c.Clear f l) :
    (∀ p ∈ l, (renameAll cfg f l c).fileInodeMapping.lookup p = none) ∧
      (∀ p ∈ l, (c.fileInodeMapping.lookup p).isSome →
        (renameAll cfg f l c).fileInodeMapping.lookup (f p) = c.fileInodeMapping.lookup p) ∧
      ∀ q, q ∉ l → (∀ p ∈ l, (c.fileInodeMapping.lookup p).isSome → q ≠ f p) →
        (renameAll cfg f l c).fileInodeMapping.lookup q = c.fileInodeMapping.lookup q := by
  induction l generalizing c with
  | nil => exact ⟨fun p hp => (by cases hp), fun p hp => (by cases hp), fun _ _ _ => rfl⟩
  | cons p l ih =>
      obtain ⟨h1, h2, h3⟩ := ih (h.tail cfg)
      have hp : p ∈ p :: l := List.mem_cons_self
      have hmem : ∀ {q}, q ∈ l → q ∈ p :: l := List.mem_cons_of_mem _
      have hstep : ∀ q, (c.renameItem cfg p (f p)).fileInodeMapping.lookup q = _ :=
        lookup_mapping_renameItem c p (f p)
      -- a file of the rest that is mapped after the first one is renamed was mapped before
      have hold : ∀ q ∈ l, ((c.renameItem cfg p (f p)).fileInodeMapping.lookup q).isSome →
          (c.fileInodeMapping.lookup q).isSome := by
        intro q hq hsome
        rw [hstep] at hsome
        split_ifs at hsome with hmap hqf
        · exact absurd (hqf ▸ hmem hq) (h.apart p hp hmap)
        · cases hsome
        · exact hsome
        · exact hsome
      -- the first file loses its old name
      have hgone : (c.renameItem cfg p (f p)).fileInodeMapping.lookup p = none := by
        rw [hstep]
        by_cases hmap : (c.fileInodeMapping.lookup p).isSome = true
        · have hne : p ≠ f p := fun heq => h.apart p hp hmap (heq ▸ hp)
          rw [if_pos hmap, if_neg hne, if_pos rfl]
        · rw [if_neg hmap]
          exact Option.not_isSome_iff_eq_none.mp hmap
      rw [renameAll, List.foldl_cons]
      refine ⟨fun q hq => ?_, fun q hq hmap => ?_, fun q hq hne => ?_⟩
      · rcases List.mem_cons.mp hq with rfl | hq
        · by_cases hin : q ∈ l
          · exact h1 q hin
          · exact (h3 q hin fun r hr hsome heq =>
              h.apart r (hmem hr) (hold r hr hsome) (heq ▸ hp)).trans hgone
        · exact h1 q hq
      · by_cases hqp : q = p
        · subst hqp
          have hnew := h3 (f q) (fun hin => h.apart q hp hmap (hmem hin)) fun r hr hsome heq => by
            rw [← h.inj q hp r (hmem hr) heq, hgone] at hsome
            cases hsome
          refine hnew.trans ?_
          rw [hstep, if_pos hmap, if_pos rfl]
        · have hql := (List.mem_cons.mp hq).resolve_left hqp
          have hsame : (c.renameItem cfg p (f p)).fileInodeMapping.lookup q
              = c.fileInodeMapping.lookup q := by
            rw [hstep]
            by_cases hpmap : (c.fileInodeMapping.lookup p).isSome = true
            · have hne : q ≠ f p := fun heq => h.apart p hp hpmap (heq ▸ hq)
              rw [if_pos hpmap, if_neg hne, if_neg hqp]
            · rw [if_neg hpmap]
          exact (h2 q hql (hsame.symm ▸ hmap)).trans hsame
      · rw [List.mem_cons, not_or] at hq
        refine (h3 q hq.2 fun r hr hsome => hne r (hmem hr) (hold r hr hsome)).trans ?_
        rw [hstep]
        by_cases hpmap : (c.fileInodeMapping.lookup p).isSome = true
        · rw [if_pos hpmap, if_neg (hne p hp hpmap), if_neg hq.1]
        · rw [if_neg hpmap]

/-- No item is touched when none has the empty content id. -/
lemma keeps_renameAll (h : c.Clear f l) (hnone : c.contents.lookup "" = none) :
    (renameAll cfg f l c).engine = c.engine ∧ (renameAll cfg f l c).contents = c.contents := by
  induction l generalizing c with
  | nil => exact ⟨rfl, rfl⟩
  | cons p l ih =>
      have hstep : (c.renameItem cfg p (f p)).engine = c.engine ∧
          (c.renameItem cfg p (f p)).contents = c.contents := by
        by_cases hmap : (c.fileInodeMapping.lookup p).isSome = true
        · exact keeps_renameItem (h.free p List.mem_cons_self hmap) hnone
        · rw [renameItem_of_none (Option.not_isSome_iff_eq_none.mp hmap)]
          exact ⟨rfl, rfl⟩
      obtain ⟨h1, h2⟩ := ih (h.tail cfg) (hstep.2 ▸ hnone)
      exact ⟨h1.trans hstep.1, h2.trans hstep.2⟩

/-- The item of the empty content id loses a link or goes when a mapped file is renamed. -/
lemma nlinks_renameAll_lt (h : c.Clear f l) (hp : p ∈ l)
    (hmap : (c.fileInodeMapping.lookup p).isSome) {it it' : Item}
    (hit : c.contents.lookup "" = some it)
    (h' : (renameAll cfg f l c).contents.lookup "" = some it') :
    it'.metadata.nlinks < it.metadata.nlinks := by
  induction l generalizing c with
  | nil => cases hp
  | cons q l ih =>
      rw [renameAll, List.foldl_cons] at h'
      by_cases hq : (c.fileInodeMapping.lookup q).isSome = true
      · obtain ⟨it1, h1, hle⟩ := nlinks_renameAll_le f l _ h'
        have hnew : (c.fileInodeMapping.lookup (f q)).getD "" = "" := by
          rw [h.free q List.mem_cons_self hq]
          rfl
        exact hle.trans_lt (nlinks_renameItem_lt hq hnew hit h1)
      · rw [renameItem_of_none (Option.not_isSome_iff_eq_none.mp hq)] at h'
        have htail := h.tail cfg
        rw [renameItem_of_none (Option.not_isSome_iff_eq_none.mp hq)] at htail
        exact ih htail ((List.mem_cons.mp hp).resolve_left fun heq => hq (heq ▸ hmap)) hmap hit h'

end Cache

/-! ### The operation -/

namespace FS

/-- Every mapped path names the regular file whose inode it is mapped to. -/
def Agrees (fs : FS) : Prop := ∀ p inode, fs.cache.fileInodeMapping.lookup p = some inode →
  ∃ i, fs.disk.ino p = some i ∧ inode = inodeStr i

/-- The files below `source` go along to `dest`; the other names and every item are as before. -/
structure Carried (fs fs' : FS) (source dest : Path) : Prop where
  moved : ∀ s inode, s ≠ [] → fs.cache.fileInodeMapping.lookup (source ++ s) = some inode →
    fs'.cache.fileInodeMapping.lookup (dest ++ s) = some inode
  left : ∀ s, s ≠ [] → fs'.cache.fileInodeMapping.lookup (source ++ s) = none
  others : ∀ p, (∀ s, s ≠ [] → p ≠ source ++ s) →
    (∀ s, s ≠ [] → p = dest ++ s → fs.cache.fileInodeMapping.lookup (source ++ s) = none) →
    fs'.cache.fileInodeMapping.lookup p = fs.cache.fileInodeMapping.lookup p
  items : ∀ cid it, fs.cache.contents.lookup cid = some it →
    ∃ it', fs'.cache.contents.lookup cid = some it' ∧ it'.metadata.size = it.metadata.size ∧
      it'.metadata.nlinks = it.metadata.nlinks ∧ it'.data = it.data
  pages : fs'.cache.engine = fs.cache.engine

/-- A mapped path is not a directory. -/
lemma Agrees.lookup_dir (hA : fs.Agrees) {p : Path} (hp : fs.disk.isDir p) :
    fs.cache.fileInodeMapping.lookup p = none := by
  cases hm : fs.cache.fileInodeMapping.lookup p with
  | none => rfl
  | some inode =>
      obtain ⟨i, hi, -⟩ := hA p inode hm
      exact absurd hp (Disk.not_isDir_of_ino hi)

/-- A name that a directory can be moved to. -/
def Vacant (d : Disk) (p : Path) : Prop :=
  d.entries.lookup p = none ∨ (d.isDir p ∧ d.children p = [])

/-- Nothing is mapped at a vacant name or below it. -/
lemma Agrees.lookup_vacant (hA : fs.Agrees) (hW : fs.disk.WellFormed) (hdest : Vacant fs.disk dest)
    (s : Path) :
    fs.cache.fileInodeMapping.lookup (dest ++ s) = none := by
  cases hm : fs.cache.fileInodeMapping.lookup (dest ++ s) with
  | none => rfl
  | some inode =>
      obtain ⟨i, hi, -⟩ := hA _ inode hm
      have hfile := Disk.lookup_of_ino hi
      rcases eq_or_ne s [] with rfl | hs
      · rw [List.append_nil] at hfile
        rcases hdest with hd | ⟨hd, -⟩
        · rw [hd] at hfile
          cases hfile
        · rw [Disk.isDir, hfile] at hd
          cases hd
      · rw [hW.lookup_below hs (hdest.imp_right And.right)] at hfile
        cases hfile

/-- No name is below both the directory and the name that it is moved to. -/
lemma apart_of_rename (hW : fs.disk.WellFormed) (hsource : fs.disk.isDir source)
    (hdest : Vacant fs.disk dest) {d' : Disk} (hren : fs.disk.rename source dest = some d')
    (hne : source ≠ dest) (s t : Path) :
    dest ++ t ≠ source ++ s := by
  intro heq
  rcases List.append_eq_append_iff.mp heq with ⟨u, hu, -⟩ | ⟨u, hu, -⟩
  · -- the directory would be below the vacant name
    have hu0 : u ≠ [] := by
      rintro rfl
      exact hne (hu.trans (List.append_nil _))
    rw [Disk.isDir, hu, hW.lookup_below hu0 (hdest.imp_right And.right)] at hsource
    cases hsource
  · -- a directory is not moved below itself
    have hpre : source <+: dest := ⟨u, hu.symm⟩
    rw [Disk.rename, hsource] at hren
    rcases hdest with hd | ⟨hd, -⟩
    · rw [hd] at hren
      dsimp only at hren
      rw [if_neg fun h => h.2 ⟨rfl, hpre⟩] at hren
      cases hren
    · rw [hd] at hren
      dsimp only at hren
      rw [if_neg hne, if_neg fun h => h.2 hpre] at hren
      cases hren

/-- The new name of what is below the directory. -/
lemma newName_append (source dest s : Path) : dest ++ (source ++ s).drop source.length
    = dest ++ s := by
  rw [List.drop_left]

/-- The files below the directory can be renamed one after the other. -/
lemma clear_filesBelow (hW : fs.disk.WellFormed) (hA : fs.Agrees) (resolve : Path → Resolved)
    (hsource : fs.disk.isDir source) (hdest : Vacant fs.disk dest) {d' : Disk}
    (hren : fs.disk.rename source dest = some d') :
    fs.cache.Clear (fun it => dest ++ it.drop source.length) (fs.filesBelow resolve source) := by
  have hbelow : ∀ p ∈ fs.filesBelow resolve source, ∃ s, p = source ++ s := fun p hp => by
    obtain ⟨s, hs⟩ := below_dirname fs.disk resolve _ hp
    exact ⟨s, hs.symm⟩
  refine ⟨fun p hp q hq heq => ?_, fun p hp hmap hin => ?_, fun p hp hmap => ?_⟩
  · obtain ⟨s, rfl⟩ := hbelow p hp
    obtain ⟨t, rfl⟩ := hbelow q hq
    rw [newName_append, newName_append] at heq
    rw [List.append_cancel_left heq]
  · obtain ⟨s, rfl⟩ := hbelow p hp
    have hne : source ≠ dest := by
      rintro rfl
      rw [hA.lookup_vacant hW hdest] at hmap
      cases hmap
    rw [newName_append] at hin
    obtain ⟨t, ht⟩ := hbelow _ hin
    exact apart_of_rename hW hsource hdest hren hne t s ht
  · exact hA.lookup_vacant hW hdest _

/-- A directory is renamed in the cache by the names of the files that the listing finds. -/
lemma cache_lfsRename (cfg : Config) (hA : fs.Agrees) (resolve : Path → Resolved)
    (hsource : fs.disk.isDir source) (hdest : Vacant fs.disk dest) {d' : Disk}
    (hren : fs.disk.rename source dest = some d') :
    (fs.lfsRename cfg resolve source dest).1.cache
      = Cache.renameAll cfg (fun it => dest ++ it.drop source.length) (fs.filesBelow resolve source)
        fs.cache := by
  have hino : fs.cache.getOriginalInode source = "" := by
    rw [Cache.getOriginalInode, hA.lookup_dir hsource]
    rfl
  have hempty : isNonemptyDir fs.disk resolve dest = false := by
    rw [isNonemptyDir]
    rcases hdest with hd | ⟨hd, hc⟩
    · rw [hd]
    · rw [hd, hc]
      rfl
  rw [lfsRename_eq, hren, lfsRenameWith, renameCached, if_pos hino, lfsRecursiveRename, hempty,
    if_neg Bool.false_ne_true]
  rfl

/-- The mapped paths below the directory are the files that the listing finds. -/
lemma mem_filesBelow_of_mapped (hW : fs.disk.WellFormed) (hA : fs.Agrees)
    (resolve : Path → Resolved) (hsource : fs.disk.isDir source) {s : Path}
    (hmap : (fs.cache.fileInodeMapping.lookup (source ++ s)).isSome) :
    s ≠ [] ∧ source ++ s ∈ fs.filesBelow resolve source := by
  have hs : s ≠ [] := by
    rintro rfl
    rw [List.append_nil, hA.lookup_dir hsource] at hmap
    cases hmap
  obtain ⟨inode, hinode⟩ := Option.isSome_iff_exists.mp hmap
  obtain ⟨i, hi, -⟩ := hA _ inode hinode
  exact ⟨hs, mem_filesBelow hW resolve hs hi⟩

/-- Where the items and the engine stay, a directory rename carries the names. -/
lemma carried_of_kept (cfg : Config) (hW : fs.disk.WellFormed) (hA : fs.Agrees)
    (resolve : Path → Resolved) (hsource : fs.disk.isDir source)
    (hdest : Vacant fs.disk dest) {d' : Disk} (hren : fs.disk.rename source dest = some d')
    (hengine : (fs.lfsRename cfg resolve source dest).1.cache.engine = fs.cache.engine)
    (hcontents : (fs.lfsRename cfg resolve source dest).1.cache.contents = fs.cache.contents) :
    fs.Carried (fs.lfsRename cfg resolve source dest).1 source dest := by
  have hcache := cache_lfsRename cfg hA resolve hsource hdest hren
  have hlisted := fun s => mem_filesBelow_of_mapped (s := s) hW hA resolve hsource
  obtain ⟨hgone, hnew, hrest⟩ :=
    Cache.lookup_renameAll cfg (clear_filesBelow hW hA resolve hsource hdest hren)
  refine ⟨fun s inode hs hmap => ?_, fun s hs => ?_, fun q hbelow hq => ?_,
    fun cid it hit => ?_, hengine⟩
  · -- the new names
    have hmem := (hlisted s (by rw [hmap]; rfl)).2
    rw [hcache, ← newName_append source dest s, hnew _ hmem (by rw [hmap]; rfl), hmap]
  · -- the old names
    rw [hcache]
    by_cases hin : source ++ s ∈ fs.filesBelow resolve source
    · exact hgone _ hin
    · have hnone : fs.cache.fileInodeMapping.lookup (source ++ s) = none := by
        by_contra hsome
        exact hin (hlisted s (Option.ne_none_iff_isSome.mp hsome)).2
      refine (hrest _ hin fun p hp hmap heq => ?_).trans hnone
      obtain ⟨t, rfl⟩ := below_dirname fs.disk resolve _ hp
      rw [newName_append] at heq
      refine apart_of_rename hW hsource hdest hren ?_ s t heq.symm
      rintro rfl
      rw [hA.lookup_vacant hW hdest] at hmap
      cases hmap
  · -- all other names
    rw [hcache]
    by_cases hin : q ∈ fs.filesBelow resolve source
    · obtain ⟨s, rfl⟩ := below_dirname fs.disk resolve _ hin
      obtain rfl : s = [] := by_contra fun hs => hbelow s hs rfl
      rw [hgone _ hin, List.append_nil]
      exact (hA.lookup_dir hsource).symm
    · refine hrest q hin fun p hp hmap heq => ?_
      obtain ⟨t, rfl⟩ := below_dirname fs.disk resolve _ hp
      rw [newName_append] at heq
      rw [hq t (hlisted t hmap).1 heq] at hmap
      cases hmap
  · exact ⟨it, by rw [hcontents, hit], rfl, rfl, rfl⟩

/-- A directory with a file and a directory in it, and a file beside it. -/
def treeDisk : Disk :=
  { oneFile with
      entries := ((((Map.single [] .dir).set ["f"] (.file 1)).set ["d"] .dir).set ["d",
        "g"] (.file 2)).set
        ["dx"] (.file 3) }

lemma wellFormed_of_toList {d : Disk} (hroot : d.isDir [])
    (h : ∀ e ∈ d.entries.toList, d.isDir e.1.dropLast) : d.WellFormed :=
  ⟨hroot, fun p o ho => h (p, o) (Map.mem_toList.mpr ho)⟩

lemma agrees_of_toList
    (h : ∀ e ∈ fs.cache.fileInodeMapping.toList, (fs.disk.ino e.1).map inodeStr = some e.2) :
    fs.Agrees := by
  intro p inode hp
  obtain ⟨i, hi, heq⟩ := Option.map_eq_some_iff.mp (h (p, inode) (Map.mem_toList.mpr hp))
  exact ⟨i, hi, heq.symm⟩

/-- The names agree, and the directory `d` can become `e`. -/
def inScene (fs : FS) : Bool :=
  (fs.disk.rename ["d"] ["e"]).isSome && fs.disk.isDir [] && fs.disk.isDir ["d"] &&
    decide (fs.disk.entries.lookup ["e"] = none) &&
    decide (∀ e ∈ fs.disk.entries.toList, fs.disk.isDir e.1.dropLast) &&
    decide (∀ e ∈ fs.cache.fileInodeMapping.toList, (fs.disk.ino e.1).map inodeStr = some e.2)

/-- The tree, the files `d/g` and `dx` known to the cache. -/
def known : Option FS := do
  let (fs, _) ← (⟨.new (.tiny 2 false), treeDisk⟩ : FS).lfsGetattr (.tiny 2 false) ["d", "g"]
  let (fs, _) ← fs.lfsGetattr (.tiny 2 false) ["dx"]
  some fs

/-- `d/g` is known to the cache, and `f` was read through its handle after it was removed. -/
def readRemoved : Option FS := do
  let (fs, _) ← (⟨.new (.tiny 2 false), treeDisk⟩ : FS).lfsGetattr (.tiny 2 false) ["d", "g"]
  let (fs, _) := fs.lfsUnlink (.tiny 2 false) ["f"]
  let (fs, _) ← fs.lfsRead (.tiny 2 false) ["f"] (fun _ => 0) 4 0 (some handle) {}
  some fs

end FS

end LazyFS
