import LazyFS.File.Durable
import LazyFS.File.Kept
import LazyFS.File.TidyCalls

/-!
**Clearing the cache.**

* `Cache.Fresh`: a newly constructed cache, up to the order of the free pages.
* `Cache.NamesApart`: every mapped path has an item of its own.
* `Cache.Tidy.fresh_clearAllCache_iff`, `fresh_clearAllCache_iff`: `clear_all_cache` returns the
  cache to its initial state exactly then; apart from the names it always does.
* `clear_keeps_link`: the second name of a hard link stays mapped.
-/

namespace LazyFS

open Engine

variable {cfg : Config}

namespace Cache

/-- What a clear must leave of a cache: nothing, with every page as new. -/
structure Fresh (cfg : Config) (c : Cache) : Prop where
  contents : c.contents = ∅
  names : c.fileInodeMapping = ∅
  locks : c.itemLocks = ∅
  /-- Every page is free, once. -/
  free : c.engine.freePages.Perm (List.range cfg.cacheNrPages)
  /-- It is clean and unowned, without a block, and zero. -/
  pages : ∀ p, p < cfg.cacheNrPages → (c.engine.searchIndex p).isDirty = false ∧
    (c.engine.searchIndex p).pageOwnerId = "none" ∧
    (c.engine.searchIndex p).freeBlockIndexes = Page.slots cfg ∧
    (c.engine.searchIndex p).allocatedBlockIds = .empty ∧
    (c.engine.searchIndex p).data.read 0 cfg.cachePageSize = List.replicate cfg.cachePageSize 0
  owners : c.engine.ownerPagesMapping = ∅ ∧ c.engine.ownerOrderedPagesMapping = ∅ ∧
    c.engine.ownerFreePagesMapping = ∅
  lru : c.engine.lruMainVector = [] ∧ c.engine.pageOrderMapping = ∅

/-- Every mapped path has an item, and no two paths have the same one. -/
def NamesApart (c : Cache) : Prop :=
  (∀ p i, c.fileInodeMapping.lookup p = some i → (c.contents.lookup i).isSome) ∧
  ∀ p q i, c.fileInodeMapping.lookup p = some i → c.fileInodeMapping.lookup q = some i → p = q

/-! ### The names -/

/-- The first loop of `clear_all_cache`. -/
def removeNames (cfg : Config) (c : Cache) (l : List (Path × String)) : Cache :=
  l.foldl (fun c it => (c.removeCachedItem cfg it.2 it.1 true).1) c

/-- One name is removed if its item is still there, and the item with it. -/
lemma removeCachedItem_true (cfg : Config) (c : Cache) (owner : String) (path : Path) :
    (∀ q, (c.removeCachedItem cfg owner path true).1.fileInodeMapping.lookup q
      = if q = path ∧ (c.contents.lookup owner).isSome then none else c.fileInodeMapping.lookup q) ∧
    ∀ o, ((c.removeCachedItem cfg owner path true).1.contents.lookup o).isSome
      = (decide (o ≠ owner) && (c.contents.lookup o).isSome) := by
  cases hit : c.contents.lookup owner with
  | none =>
      rw [removeCachedItem, hit]
      refine ⟨fun q => by simp, fun o => ?_⟩
      by_cases ho : o = owner
      · subst ho
        simp [hit]
      · simp [ho]
  | some it =>
      simp only [removeCachedItem, hit, Bool.not_true, Bool.false_eq_true, false_and, if_false,
        Option.isSome_some, and_true]
      refine ⟨fun q => ?_, fun o => ?_⟩
      · simp only [deleteItem, setItem, Map.lookup_erase']
      · simp only [deleteItem, setItem, Map.lookup_erase', Map.lookup_set]
        by_cases ho : o = owner
        · simp [ho]
        · simp [ho]

/-- A name that is not in the list stays. -/
lemma lookup_removeNames_of_notMem (cfg : Config) {q : Path} :
    ∀ {l : List (Path × String)} {c : Cache}, q ∉ l.map Prod.fst →
      (c.removeNames cfg l).fileInodeMapping.lookup q = c.fileInodeMapping.lookup q := by
  intro l
  induction l with
  | nil => exact fun _ => rfl
  | cons x l ih =>
      intro c hq
      rw [List.map_cons, List.mem_cons, not_or] at hq
      have hstep := ((removeCachedItem_true cfg c x.2 x.1).1 q).trans
        (if_neg fun h => hq.1 h.1)
      exact (ih hq.2).trans hstep

/-- A name that is gone stays so. -/
lemma lookup_removeNames_of_none {q : Path} :
    ∀ {l : List (Path × String)} {c : Cache}, c.fileInodeMapping.lookup q = none →
      (c.removeNames cfg l).fileInodeMapping.lookup q = none := by
  intro l
  induction l with
  | nil => exact fun h => h
  | cons x l ih =>
      intro c hq
      refine ih ?_
      rw [(removeCachedItem_true cfg c x.2 x.1).1 q, hq, ite_self]

/-- **The loop removes all the names** exactly when every one of them has an item of its own: the
first name of an item takes the item away. -/
lemma removeNames_none_iff (cfg : Config) :
    ∀ {l : List (Path × String)} {c : Cache}, (l.map Prod.fst).Nodup →
      (∀ x ∈ l, c.fileInodeMapping.lookup x.1 = some x.2) →
      ((∀ x ∈ l, (c.removeNames cfg l).fileInodeMapping.lookup x.1 = none) ↔
        (∀ x ∈ l, (c.contents.lookup x.2).isSome) ∧ (l.map Prod.snd).Nodup) := by
  intro l
  induction l with
  | nil => exact fun _ _ => by simp
  | cons x l ih =>
      intro c hnd hl
      rw [List.map_cons, List.nodup_cons] at hnd
      obtain ⟨hnames, hitems⟩ := removeCachedItem_true cfg c x.2 x.1
      have hne : ∀ y ∈ l, y.1 ≠ x.1 := fun y hy heq => hnd.1 (heq ▸ List.mem_map_of_mem hy)
      have hih := ih (c := (c.removeCachedItem cfg x.2 x.1 true).1) hnd.2 fun y hy => by
        rw [hnames, if_neg fun h => hne y hy h.1]
        exact hl y (List.mem_cons_of_mem _ hy)
      -- the head goes exactly when its item is there
      have hhead : (c.removeNames cfg (x :: l)).fileInodeMapping.lookup x.1 = none ↔
          (c.contents.lookup x.2).isSome := by
        have hkeep := lookup_removeNames_of_notMem cfg (c :=
          (c.removeCachedItem cfg x.2 x.1 true).1) hnd.1
        have hrun := hkeep.trans (hnames x.1)
        change (removeNames cfg (c.removeCachedItem cfg x.2 x.1 true).1 l).fileInodeMapping.lookup
          x.1
          = none ↔ _
        rw [hrun, hl x List.mem_cons_self]
        simp [Option.isSome_iff_ne_none]
      have htail : (∀ y ∈ l, ((c.removeCachedItem cfg x.2 x.1 true).1.contents.lookup y.2).isSome) ↔
          (∀ y ∈ l, (c.contents.lookup y.2).isSome) ∧ x.2 ∉ l.map Prod.snd := by
        refine ⟨fun h => ⟨fun y hy => ?_, fun hmem => ?_⟩, fun h y hy => ?_⟩
        · have hy' := h y hy
          rw [hitems, Bool.and_eq_true] at hy'
          exact hy'.2
        · obtain ⟨y, hy, heq⟩ := List.mem_map.mp hmem
          have hy' := h y hy
          rw [hitems, Bool.and_eq_true, decide_eq_true_eq] at hy'
          exact hy'.1 heq
        · rw [hitems, Bool.and_eq_true, decide_eq_true_eq]
          exact ⟨fun heq => h.2 (heq ▸ List.mem_map_of_mem hy), h.1 y hy⟩
      rw [List.forall_mem_cons, hhead, List.forall_mem_cons, List.map_cons, List.nodup_cons]
      change _ ∧ (∀ y ∈ l, (removeNames cfg (c.removeCachedItem cfg x.2 x.1 true).1
        l).fileInodeMapping.lookup y.1 = none) ↔ _
      rw [hih, htail]
      tauto

/-- `clear_all_cache` leaves no name exactly when every mapped path has an item of its own. -/
lemma names_clearAllCache_iff (cfg : Config) (c : Cache) :
    (c.clearAllCache cfg).fileInodeMapping = ∅ ↔ c.NamesApart := by
  have hperm := cfg.unordered_perm c.fileInodeMapping.toList
  have hmem : ∀ p i, (p, i) ∈ cfg.unordered c.fileInodeMapping.toList ↔
      c.fileInodeMapping.lookup p = some i := fun p i => hperm.mem_iff.trans Map.mem_toList
  have hnd : ((cfg.unordered c.fileInodeMapping.toList).map Prod.fst).Nodup :=
    (hperm.map _).nodup_iff.mpr (Map.nodup_map_fst_toList _)
  have hsame : (c.clearAllCache cfg).fileInodeMapping
      = (c.removeNames cfg (cfg.unordered c.fileInodeMapping.toList)).fileInodeMapping := by
    have hfold : ∀ (l : List String) (c : Cache),
        (l.foldl (fun c cid => c.deleteItem cfg cid) c).fileInodeMapping = c.fileInodeMapping := by
      intro l
      induction l with
      | nil => exact fun _ => rfl
      | cons x l ih => exact fun c => ih (c.deleteItem cfg x)
    exact hfold _ _
  have hiff := removeNames_none_iff cfg (c := c) hnd fun x hx => (hmem x.1 x.2).mp hx
  rw [hsame]
  constructor
  · intro hempty
    obtain ⟨hitems, hsnd⟩ := hiff.mp fun x _ => by rw [hempty, AList.lookup_empty]
    refine ⟨fun p i hp => hitems (p, i) ((hmem p i).mpr hp), fun p q i hp hq => ?_⟩
    have hinj := List.inj_on_of_nodup_map hsnd ((hmem p i).mpr hp) ((hmem q i).mpr hq) rfl
    exact congrArg Prod.fst hinj
  · rintro ⟨hitems, hapart⟩
    have hgone := hiff.mpr ⟨fun x hx => hitems x.1 x.2 ((hmem x.1 x.2).mp hx),
      List.Nodup.map_on (fun x hx y hy heq => Prod.ext (hapart x.1 y.1 x.2 ((hmem x.1 x.2).mp hx)
        (heq ▸ (hmem y.1 y.2).mp hy)) heq) hnd.of_map⟩
    refine Map.eq_empty_of_lookup fun q => ?_
    cases hq : c.fileInodeMapping.lookup q with
    | none => exact lookup_removeNames_of_none hq
    | some i => exact hgone (q, i) ((hmem q i).mpr hq)

/-! ### The pages -/

/-- A tidy cache without items and names is fresh. -/
lemma Tidy.fresh {c : Cache} {tbl : PageTable} (h : OneBlock cfg) (hT : c.Tidy cfg tbl)
    (hitems : ∀ o, c.contents.lookup o = none) (hnames : c.fileInodeMapping = ∅) : c.Fresh cfg := by
  -- without items no owner has pages, so all are free and none is in the list
  have hunowned : ∀ o, c.engine.ownerPagesMapping.lookup o = none := by
    intro o
    by_contra ho
    have hsome := hT.owners o (Option.isSome_iff_ne_none.mpr ho)
    rw [hitems o] at hsome
    cases hsome
  have hempty : ∀ p, tbl p = none := by
    intro p
    by_contra hne
    obtain ⟨⟨o, b⟩, hp⟩ := Option.ne_none_iff_exists'.mp hne
    have hknown := hT.rep.known p o b hp
    rw [hunowned o] at hknown
    cases hknown
  have hlru : c.engine.lruMainVector = [] := by
    refine List.eq_nil_iff_forall_not_mem.mpr fun x hx => ?_
    have hlive := hT.lru.live x hx
    rw [hempty x.2] at hlive
    cases hlive
  refine ⟨Map.eq_empty_of_lookup hitems, hnames, Map.eq_empty_of_lookup fun o => ?_,
    ?_, fun p hp => ?_, ⟨Map.eq_empty_of_lookup hunowned, Map.eq_empty_of_lookup fun o => ?_,
      Map.eq_empty_of_lookup fun o => ?_⟩, hlru, Map.eq_empty_of_lookup fun p => ?_⟩
  · -- the locks
    have hlock := hT.locks o
    rw [hitems o] at hlock
    simpa using hlock
  · refine (List.perm_ext_iff_of_nodup hT.rep.nodup List.nodup_range).mpr fun p => ?_
    rw [hT.rep.mem_free, List.mem_range]
    exact ⟨fun hp => hp.1, fun hp => ⟨hp, hempty p, by simp⟩⟩
  · -- the pages
    have hfree := hT.rep.free p hp (hempty p) (by simp)
    refine ⟨hfree.clean, hfree.owner, hfree.slots.trans h.slots_eq.symm, hfree.blocks, ?_⟩
    rw [h.page_eq]
    exact hfree.zero
  · have hord := hT.rep.ordered_isSome o
    rw [hunowned o] at hord
    simpa using hord
  · rw [hT.rep.rooms o, hunowned o]
    rfl
  · by_contra hne
    obtain ⟨n, hn⟩ := Option.ne_none_iff_exists'.mp hne
    have hmem := (hT.lru.iter p n).mp hn
    rw [hlru] at hmem
    cases hmem

/-- **`clear_all_cache` on a tidy cache** makes it fresh exactly when every mapped path has an item
of its own. -/
theorem Tidy.fresh_clearAllCache {c : Cache} {tbl : PageTable} (h : OneBlock cfg)
    (hT : c.Tidy cfg tbl) : (c.clearAllCache cfg).Fresh cfg ↔ c.NamesApart := by
  rw [← names_clearAllCache_iff cfg]
  obtain ⟨tbl', hT'⟩ := hT.clearAllCache h
  exact ⟨fun hF => hF.names, hT'.fresh h (lookup_clearAllCache cfg c).1⟩

end Cache

/-- **Clearing returns the cache to its initial state** exactly when every mapped path has an item
of its own, after any calls and with eviction on or off. -/
theorem fresh_clearAllCache_iff (h : OneBlock cfg) (d : Disk) (ops : List FsOp) {fs : FS}
    (hrun : Runs.run (FsOp.run cfg) ⟨.new cfg, d⟩ ops = some fs) :
    (fs.cache.clearAllCache cfg).Fresh cfg ↔ fs.cache.NamesApart := by
  obtain ⟨tbl, hT⟩ := FS.tidy_of_run h d ops hrun
  exact hT.fresh_clearAllCache h

/-- Two blocks written through a cache of one page. -/
def twoBlocks : List FsOp :=
  [.write ["f"] abcd 4 0 (some handle) {} {}, .write ["f"] abcd 4 4 (some handle) {} {}]

/-- The second block has evicted the first one; the clear takes the second. -/
theorem fresh_clearAllCache_evicted : ∃ fs,
    Runs.run (FsOp.run (.tiny 1 true)) ⟨.new (.tiny 1 true), oneFile⟩ twoBlocks = some fs ∧
      (fs.cache.clearAllCache (.tiny 1 true)).Fresh (.tiny 1 true) := by
  have hval : (Runs.run (FsOp.run (.tiny 1 true)) ⟨.new (.tiny 1 true), oneFile⟩ twoBlocks).map
      (fun fs => (fs.cache.fileInodeMapping.entries.map fun e => (e.1, e.2),
        (fs.cache.contents.lookup "1").isSome))
      = some ([(["f"], "1")], true) := by decide +kernel
  obtain ⟨fs, hfs, hval⟩ := Option.map_eq_some_iff.mp hval
  obtain ⟨hnames, hitem⟩ := Prod.mk.inj hval
  have hone : ∀ p i, fs.cache.fileInodeMapping.lookup p = some i → (p, i) = (["f"], "1") := by
    intro p i hp
    refine List.mem_singleton.mp (hnames ▸ ?_)
    exact Map.mem_toList.mpr hp
  refine ⟨fs, hfs, (fresh_clearAllCache_iff (Config.onePage_tiny 1 true).oneBlock oneFile twoBlocks
    hfs).mpr ⟨fun p i hp => ?_, fun p q i hp hq => ?_⟩⟩
  · rw [(Prod.mk.inj (hone p i hp)).2]
    exact hitem
  · exact (Prod.mk.inj (hone p i hp)).1.trans (Prod.mk.inj (hone q i hq)).1.symm

/-! ### A hard link -/

/-- The file in the root directory. -/
def rootedFile : Disk := { oneFile with entries := (Map.single ["f"] (.file 1)).set [] .dir }

/-- The written file gets a second name. -/
def linked : List FsOp := [.write ["f"] abcd 4 0 (some handle) {} {}, .link ["f"] ["g"]]

/-- **A clear keeps a name of a hard link**: the first name takes the item away, and the second is
skipped for want of an item. -/
theorem clear_keeps_link : ∃ fs,
    Runs.run (FsOp.run (.tiny 2 false)) ⟨.new (.tiny 2 false), rootedFile⟩ linked = some fs ∧
      ¬ (fs.cache.clearAllCache (.tiny 2 false)).Fresh (.tiny 2 false) := by
  have hval : (Runs.run (FsOp.run (.tiny 2 false)) ⟨.new (.tiny 2 false), rootedFile⟩ linked).map
      (fun fs => (fs.cache.clearAllCache (.tiny 2 false)).fileInodeMapping.lookup ["f"])
      = some (some "1") := by decide +kernel
  obtain ⟨fs, hfs, hval⟩ := Option.map_eq_some_iff.mp hval
  refine ⟨fs, hfs, fun hfresh => ?_⟩
  rw [hfresh.names, AList.lookup_empty] at hval
  cases hval

end LazyFS
