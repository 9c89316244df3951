import LazyFS.File.TidyCalls
import LazyFS.File.Kept

/-!
**What write-back reads of the maps.**

* `Engine.nextKeys`, `Engine.nextReads`: the keys after the current one that the loop of
  `sync_pages` names, and those of which it reads the value.
* `Engine.SyncReads`: the first key of the dirty blocks, the next keys and the look-ups of a
  write-back all find an entry.
* `FsTurn`: a call of the file system, or a step of a command of the worker; `syncReads_iff`: when a
  write-back reads existing entries only.
-/

namespace LazyFS

open Engine

namespace Engine

/-- `std::next (it, 1)->first` in the turn of every block; after the last block there is none. -/
def nextKeys : List (ℤ × OrderedEntry) → List (Option ℤ)
  | [] => []
  | _ :: rest => rest.head?.map Prod.fst :: nextKeys rest

/-- The keys among these whose value the condition of `sync_pages` comes to: it tests the length of
the chunk and the end of the map first. -/
def nextReads : List (ℤ × OrderedEntry) → List OrderedEntry → List (Option ℤ)
  | [], _ => []
  | b :: rest, chunk =>
      let next := rest.head?.map Prod.fst
      if chunk.length < iovMax - 1 ∧ rest ≠ [] then
        next :: nextReads rest (if next = some (b.1 + 1) then chunk ++ [b.2] else [])
      else nextReads rest []

variable {cfg : Config} {e : Engine} {owner : String}

/-- The value of the next key is read only where there is one. -/
lemma isSome_of_mem_nextReads {l : List (ℤ × OrderedEntry)} {chunk : List OrderedEntry}
    {key : Option ℤ} (h : key ∈ nextReads l chunk) : key.isSome := by
  induction l generalizing chunk with
  | nil => cases h
  | cons b rest ih =>
      rw [nextReads] at h
      by_cases hif : chunk.length < iovMax - 1 ∧ rest ≠ []
      · rw [if_pos hif] at h
        rcases List.mem_cons.mp h with rfl | h
        · obtain ⟨x, l, hx⟩ := List.exists_cons_of_ne_nil hif.2
          rw [hx]
          rfl
        · exact ih h
      · rw [if_neg hif] at h
        exact ih h

/-- The key after the current one is named after the last block, too. -/
lemma nextKeys_isSome_iff {l : List (ℤ × OrderedEntry)} : (∀ key ∈ nextKeys l, key.isSome) ↔
    l = [] := by
  induction l with
  | nil => exact iff_of_true (fun key h => by cases h) rfl
  | cons b rest ih =>
      refine iff_of_false (fun h => ?_) (List.cons_ne_nil _ _)
      have hrest : rest = [] := ih.mp fun key hkey => h key (List.mem_cons_of_mem _ hkey)
      have hlast := h _ List.mem_cons_self
      rw [hrest] at hlast
      cases hlast

/-- A write-back of an owner reads only entries that exist: the first of its dirty blocks, the next
one of each, and its entries in the maps. -/
structure SyncReads (e : Engine) (owner : String) : Prop where
  first : (e.ownerPagesMapping.lookup owner).isSome →
  ∀ m, e.ownerOrderedPagesMapping.lookup owner = some m →
    e.dirtyBlocks m ≠ []
  next : (e.ownerPagesMapping.lookup owner).isSome →
    ∀ m, e.ownerOrderedPagesMapping.lookup owner = some m →
    ∀ key ∈ nextReads (e.dirtyBlocks m) [], key.isSome
  lookups : (e.ownerPagesMapping.lookup owner).isSome → ∃ m,
    e.ownerOrderedPagesMapping.lookup owner = some m ∧
      ((streaks (e.dirtyBlocks m) []).foldlM (fun m s => markSynced s s.pageChunk 0 m) m).isSome

/-- The next key is named only where there is one. -/
def NextNamed (e : Engine) (owner : String) : Prop :=
  (e.ownerPagesMapping.lookup owner).isSome →
    ∀ m, e.ownerOrderedPagesMapping.lookup owner = some m →
    ∀ key ∈ nextKeys (e.dirtyBlocks m), key.isSome

/-- An owner with pages has a block in a dirty page. -/
def HasDirty (e : Engine) (owner : String) : Prop :=
  (e.ownerPagesMapping.lookup owner).isSome →
    ∃ m b en, e.ownerOrderedPagesMapping.lookup owner = some m ∧
    m.lookup b = some en ∧ (e.searchIndex en.pageId).isDirty = true

/-- There are dirty blocks exactly if a block is in a dirty page. -/
lemma dirtyBlocks_ne_nil {m : Map ℤ OrderedEntry} :
    e.dirtyBlocks m ≠ [] ↔ ∃ b en, m.lookup b = some en ∧
    (e.searchIndex en.pageId).isDirty = true := by
  constructor
  · intro h
    obtain ⟨x, l, hx⟩ := List.exists_cons_of_ne_nil h
    obtain ⟨hmem, hdirty⟩ := mem_of_mem_dirtyLoop (hx ▸ List.mem_cons_self : x ∈ e.dirtyBlocks m)
    exact ⟨x.1, x.2, Map.mem_sorted.mp hmem, hdirty⟩
  · rintro ⟨b, en, hen, hdirty⟩
    obtain ⟨y, hy, -⟩ := exists_mem_dirtyLoop (e := e) (Map.mem_sorted.mpr hen) hdirty
    exact List.ne_nil_of_mem hy

/-- The entries of streaks whose blocks are in the map are found, one streak after the other. -/
lemma markStreaks_isSome (l : List Streak) (m : Map ℤ OrderedEntry)
    (h : ∀ s ∈ l, ∀ b en, (b, en) ∈ s.blocks → (m.lookup b).isSome) :
    (l.foldlM (fun m s => markSynced s s.pageChunk 0 m) m).isSome := by
  induction l generalizing m with
  | nil => rfl
  | cons s l ih =>
      have hstart : s.start + ((0 : ℕ) : ℤ) = s.start := by simp
      have hmark := markSynced_isSome s s.pageChunk 0 m fun b en hb =>
        h s List.mem_cons_self b en (by rwa [hstart] at hb)
      obtain ⟨m1, hm1⟩ := Option.isSome_iff_exists.mp hmark
      rw [List.foldlM_cons, Option.bind_eq_bind, hm1, Option.bind_some]
      refine ih m1 fun s' hs' b en hb => ?_
      have hkey := congrArg Option.isSome (markSynced_lookup s _ 0 hm1 b)
      rw [Option.isSome_map, Option.isSome_map] at hkey
      rw [hkey]
      exact h s' (List.mem_cons_of_mem _ hs') b en hb

/-- With tables of pages the look-ups always find their keys, so that only the first key may be
missing. -/
lemma syncReads_iff_hasDirty {tbl : PageTable} (hR : Rep cfg e tbl none) :
    e.SyncReads owner ↔ e.HasDirty owner := by
  constructor
  · intro h hs
    obtain ⟨m, hm, -⟩ := h.lookups hs
    obtain ⟨b, en, hen, hdirty⟩ := dirtyBlocks_ne_nil.mp (h.first hs m hm)
    exact ⟨m, b, en, hm, hen, hdirty⟩
  · intro h
    refine ⟨fun hs m hm => ?_, fun _ _ _ _ hkey => isSome_of_mem_nextReads hkey, fun hs => ?_⟩
    · obtain ⟨m', b, en, hm', hen, hdirty⟩ := h hs
      rw [hm, Option.some.injEq] at hm'
      exact dirtyBlocks_ne_nil.mpr ⟨b, en, hm' ▸ hen, hdirty⟩
    · obtain ⟨m, hm⟩ := Option.isSome_iff_exists.mp ((hR.ordered_isSome owner).trans hs)
      refine ⟨m, hm, markStreaks_isSome _ _ fun s hs b en hb => ?_⟩
      have hmem : (b, en) ∈ e.dirtyBlocks m := by
        rw [← flatMap_blocks_streaks (e.dirtyBlocks m)]
        exact List.mem_flatMap.mpr ⟨s, hs, hb⟩
      rw [Map.mem_sorted.mp (mem_of_mem_dirtyLoop hmem).1]
      rfl

end Engine

/-! ### Every reachable state -/

/-- A call of the file system, or what a command of the worker does to the cache: one path of
`full_checkpoint`, or `clear_all_cache`. -/
inductive FsTurn where
  | call (op : FsOp)
  | checkpoint (path : Path) (io : SyncIo)
  | clearAllCache

namespace FsTurn

/-- The file system after a turn. -/
def run (cfg : Config) (fs : FS) : FsTurn → Option FS
  | call op => op.run cfg fs
  | checkpoint path io => do
      let inode ← fs.cache.fileInodeMapping.lookup path
      let (c, d, _) ← fs.cache.syncOwner cfg fs.disk inode false path io
      some ⟨c, d⟩
  | clearAllCache => some ⟨fs.cache.clearAllCache cfg, fs.disk⟩

/-- A fresh cache, over any backing directory. -/
def Start (cfg : Config) (fs : FS) : Prop := fs.cache = .new cfg

/-- The states that calls and commands reach. -/
abbrev Reached (cfg : Config) : FS → Prop := Runs.Reach (run cfg) (fun _ _ => True) (Start cfg)

variable {cfg : Config} {fs fs' : FS}

lemma run_tidy (h : OneBlock cfg) (t : FsTurn) (hT : fs.Tidy cfg) (hrun : t.run cfg fs = some fs') :
    fs'.Tidy cfg := by
  cases t with
  | call op => exact op.run_tidy h hT hrun
  | checkpoint path io =>
      obtain ⟨inode, -, hrun⟩ := Option.bind_eq_some_iff.mp hrun
      obtain ⟨⟨c, d, r⟩, hsync, hrun⟩ := Option.bind_eq_some_iff.mp hrun
      cases hrun
      obtain ⟨tbl, hC⟩ := hT
      exact ⟨tbl, hC.syncOwner hsync⟩
  | clearAllCache =>
      cases hrun
      obtain ⟨tbl, hC⟩ := hT
      exact hC.clearAllCache h

/-- The cache is tidy in every state that is reached. -/
lemma Reached.tidy (h : OneBlock cfg) (hs : Reached cfg fs) : fs.Tidy cfg := by
  refine Runs.Reach.invariant (fun s hs => ?_) (fun s t s' hT _ hstep => t.run_tidy h hT hstep) hs
  have hcache : s.cache = .new cfg := hs
  exact ⟨_, hcache ▸ Cache.Tidy.new h⟩

end FsTurn

/-- **A write-back reads existing entries only** exactly when its owner has no pages or a block in a
dirty page; and it names existing entries only exactly when its owner has no pages. -/
theorem syncReads_iff {cfg : Config} (h : OneBlock cfg) {fs : FS} (hs : FsTurn.Reached cfg fs)
    (owner : String) :
    (fs.cache.engine.SyncReads owner ↔ fs.cache.engine.HasDirty owner) ∧
      (fs.cache.engine.SyncReads owner ∧ fs.cache.engine.NextNamed owner ↔
        fs.cache.engine.ownerPagesMapping.lookup owner = none) := by
  obtain ⟨tbl, hT⟩ := hs.tidy h
  have hiff : fs.cache.engine.SyncReads owner ↔ fs.cache.engine.HasDirty owner :=
    syncReads_iff_hasDirty hT.rep
  refine ⟨hiff, ?_⟩
  constructor
  · rintro ⟨hreads, hnext⟩
    by_contra hne
    have hsome := Option.isSome_iff_ne_none.mpr hne
    obtain ⟨m, hm, -⟩ := hreads.lookups hsome
    exact hreads.first hsome m hm (nextKeys_isSome_iff.mp (hnext hsome m hm))
  · intro hnone
    rw [hiff]
    constructor <;> intro hsome <;> rw [hnone] at hsome <;> cases hsome

/-- The file is written and flushed once. -/
def flushedOnce : List FsTurn :=
  [.call (.write ["f"] abcd 4 0 (some handle) {} {}), .call (.fsync ["f"] false {})]

/-- The state after it: the file has a page, which is clean. -/
lemma flushedOnce_reached : ∃ fs, FsTurn.Reached (.tiny 2 false) fs ∧
    (fs.cache.engine.ownerPagesMapping.lookup "1").isSome ∧
    ∀ m, fs.cache.engine.ownerOrderedPagesMapping.lookup "1" = some m →
      fs.cache.engine.dirtyBlocks m = [] := by
  have hrun : ((Runs.run (FsTurn.run (.tiny 2 false)) ⟨.new (.tiny 2 false), oneFile⟩
      flushedOnce).map
      fun fs => ((fs.cache.engine.ownerPagesMapping.lookup "1").isSome,
        (fs.cache.engine.ownerOrderedPagesMapping.lookup "1").map fun m =>
          fs.cache.engine.dirtyBlocks m)) = some (true, some []) := by decide +kernel
  obtain ⟨fs, hfs, heq⟩ := Option.map_eq_some_iff.mp hrun
  obtain ⟨hpages, hdirty⟩ := Prod.mk.inj heq
  have hstart : FsTurn.Reached (.tiny 2 false) ⟨.new (.tiny 2 false), oneFile⟩ := .init rfl
  refine ⟨fs, hstart.of_run (Runs.guarded_of_forall fun _ _ => trivial) hfs, hpages, fun m hm => ?_⟩
  rw [hm, Option.map_some, Option.some.injEq] at hdirty
  exact hdirty

theorem syncReads_iff_flushedOnce : ∃ fs, FsTurn.Reached (.tiny 2 false) fs ∧
    (fs.cache.engine.SyncReads "1" ↔ fs.cache.engine.HasDirty "1") ∧
      (fs.cache.engine.SyncReads "1" ∧ fs.cache.engine.NextNamed "1" ↔
        fs.cache.engine.ownerPagesMapping.lookup "1" = none) := by
  obtain ⟨fs, hs, -⟩ := flushedOnce_reached
  exact ⟨fs, hs, syncReads_iff (Config.onePage_tiny 2 false).oneBlock hs "1"⟩

/-- **The second flush of a file** reads the first key of an empty map. -/
theorem second_flush_reads_end : ∃ fs, FsTurn.Reached (.tiny 2 false) fs ∧
    ¬ fs.cache.engine.SyncReads "1" := by
  obtain ⟨fs, hs, hpages, hempty⟩ := flushedOnce_reached
  refine ⟨fs, hs, fun h => ?_⟩
  obtain ⟨m, hm, -⟩ := h.lookups hpages
  exact h.first hpages m hm (hempty m hm)

end LazyFS
