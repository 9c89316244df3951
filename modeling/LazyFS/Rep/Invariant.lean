import LazyFS.Rep.ItemOps
import LazyFS.Support.Runs

/-!
**The representation invariant** of the cache and the engine, over every run of the operations of
the cache with eviction off.

* `CacheOp`, `CacheOp.run`: one operation of the cache, with its arguments.
* `Cache.RepInv`: the seven maps of the two layers agree; `Good.repInv`.
* `repInv_of_run`: it holds after every sequence of operations from a fresh cache, none of which
  throws.
-/

namespace LazyFS

open Engine

/-- One operation of the cache. -/
inductive CacheOp where
  | putDataBlocks (cid : String) (blocks : Map ℤ BlockPut) (op : AllocateOperationType)
  | getDataBlocks (cid : String) (blocks : Map ℤ Mem)
  | truncateItem (owner : String) (newSize : ℕ)
  | syncOwner (owner : String) (onlySyncData : Bool) (origPath : Path) (io : SyncIo)
  | renameItem (oldCid newCid : Path)
  | removeCachedItem (owner : String) (path : Path) (isFromCache : Bool)
  | clearAllCache
  | insertInodeMapping (path : Path) (inode : String) (increase : Bool)
  | updateContentMetadata (cid : String) (newMeta : Metadata) (values : List MetaField)

namespace CacheOp

/-- The cache and the disk after one operation. -/
def run (cfg : Config) (s : Cache × Disk) : CacheOp → Option (Cache × Disk)
  | putDataBlocks cid blocks op =>
      (s.1.putDataBlocks cfg s.2 cid blocks op).map fun r => (r.1, r.2.1)
  | getDataBlocks cid blocks => (s.1.getDataBlocks cfg cid blocks).map fun r => (r.1, s.2)
  | truncateItem owner newSize => (s.1.truncateItem cfg owner newSize).map fun r => (r.1, s.2)
  | syncOwner owner only path io =>
      (s.1.syncOwner cfg s.2 owner only path io).map fun r => (r.1, r.2.1)
  | renameItem oldCid newCid => some (s.1.renameItem cfg oldCid newCid, s.2)
  | removeCachedItem owner path isFromCache =>
      some ((s.1.removeCachedItem cfg owner path isFromCache).1, s.2)
  | clearAllCache => some (s.1.clearAllCache cfg, s.2)
  | insertInodeMapping path inode increase => some (s.1.insertInodeMapping path inode increase, s.2)
  | updateContentMetadata cid newMeta values =>
      some (s.1.updateContentMetadata cid newMeta values, s.2)

/-- The content id of a put differs from the label of a free page. -/
def Labelled : CacheOp → Prop
  | putDataBlocks cid _ _ => cid ≠ "none"
  | _ => True

/-- The content ids differ from the label of a free page, and every block put lies in its slot and
is readable up to its end, as `lfs_write` passes it. -/
def Admissible (cfg : Config) : CacheOp → Prop
  | putDataBlocks cid blocks _ => cid ≠ "none" ∧ ∀ b bp, blocks.lookup b = some bp →
      0 ≤ bp.offStart ∧ bp.offStart + bp.len = bp.rsTo + 1 ∧ bp.rsTo + 1 ≤ cfg.ioBlockSize
  | _ => True

lemma Admissible.labelled {cfg : Config} {op : CacheOp} (h : op.Admissible cfg) : op.Labelled := by
  cases op with
  | putDataBlocks cid blocks op => exact h.1
  | _ => trivial

end CacheOp

/-- The same facts in the two layers: where every block is, and up to which byte it is readable. -/
structure Cache.RepInv (cfg : Config) (c : Cache) : Prop where
  /-- A page is free, once, or belongs to exactly one owner. -/
  free_or_owned : ∀ p < cfg.cacheNrPages,
    (c.engine.freePages.count p = 1 ∧
      ∀ o s, c.engine.ownerPagesMapping.lookup o = some s → p ∉ s) ∨
    (c.engine.freePages.count p = 0 ∧
      ∃! o, ∃ s, c.engine.ownerPagesMapping.lookup o = some s ∧ p ∈ s)
  lt : (∀ p ∈ c.engine.freePages, p < cfg.cacheNrPages) ∧
    ∀ o s, c.engine.ownerPagesMapping.lookup o = some s →
      s.Nodup ∧ ∀ p ∈ s, p < cfg.cacheNrPages
  free_page : ∀ p ∈ c.engine.freePages,
    (c.engine.searchIndex p).pageOwnerId = "none" ∧ (c.engine.searchIndex p).isDirty = false ∧
    (∀ i : ℕ, i < cfg.ioBlockSize → (c.engine.searchIndex p).data i = 0) ∧
    ∀ b, (c.engine.searchIndex p).containsBlock b = false
  /-- A page of an owner holds one block, and every map says so. -/
  owned_page : ∀ o s p, c.engine.ownerPagesMapping.lookup o = some s → p ∈ s →
    (c.engine.searchIndex p).pageOwnerId = o ∧
    ∃ b, (∀ b', (c.engine.searchIndex p).containsBlock b' = true ↔ b' = b) ∧
      (∃ en, c.engine.entry o b = some en ∧ en.pageId = p) ∧
      ∃ it info, c.contents.lookup o = some it ∧ it.data.blocks.lookup b = some info ∧
        info.pageIndexNumber = some p ∧
        (c.engine.searchIndex p).allocatedBlockIds.getReadableTo b = some info.readableOffset.2
  /-- Every block info is about a block in a page. -/
  info_arises : ∀ o it b info, c.contents.lookup o = some it →
    it.data.blocks.lookup b = some info → ∃ s p, c.engine.ownerPagesMapping.lookup o = some s ∧
      p ∈ s ∧ info.pageIndexNumber = some p ∧ (c.engine.searchIndex p).containsBlock b = true
  /-- Every ordered entry is about a block in a page. -/
  entry_arises : ∀ o b en, c.engine.entry o b = some en →
    ∃ s, c.engine.ownerPagesMapping.lookup o = some s ∧ en.pageId ∈ s ∧
      (c.engine.searchIndex en.pageId).containsBlock b = true

variable {cfg : Config} {c : Cache} {tbl : PageTable}

/-- A cache that represents a table satisfies the invariant. -/
theorem Cache.Good.repInv (hG : c.Good cfg tbl) : c.RepInv cfg where
  free_or_owned := fun p hp => by
    -- the table decides where a page is
    cases ht : tbl p with
    | none =>
        have hmem : p ∈ c.engine.freePages := (hG.rep.mem_free p).mpr ⟨hp, ht, by simp⟩
        refine .inl ⟨List.count_eq_one_of_mem hG.rep.nodup hmem, fun o s hs hps => ?_⟩
        obtain ⟨b, hb⟩ := ((hG.rep.owned o s hs).2 p).mp hps
        rw [ht] at hb
        cases hb
    | some ob =>
        obtain ⟨o, b⟩ := ob
        have hmem : p ∉ c.engine.freePages := fun h => by
          rw [((hG.rep.mem_free p).mp h).2.1] at ht
          cases ht
        obtain ⟨s, m, hs, hm, hps⟩ := hG.rep.lookup_owner ht
        refine .inr ⟨List.count_eq_zero_of_not_mem hmem, o, ⟨s, hs, hps⟩, ?_⟩
        rintro o' ⟨s', hs', hps'⟩
        obtain ⟨b', hb'⟩ := ((hG.rep.owned o' s' hs').2 p).mp hps'
        rw [ht, Option.some.injEq, Prod.mk.injEq] at hb'
        exact hb'.1.symm
  lt := by
    refine ⟨fun p hp => ((hG.rep.mem_free p).mp hp).1, fun o s hs => ?_⟩
    obtain ⟨h1, h2⟩ := hG.rep.owned o s hs
    refine ⟨h1, fun p hp => ?_⟩
    obtain ⟨b, hb⟩ := (h2 p).mp hp
    exact hG.rep.lt hb
  free_page := fun p hp => by
    obtain ⟨hlt, ht, -⟩ := (hG.rep.mem_free p).mp hp
    have hf := hG.rep.free p hlt ht (by simp)
    refine ⟨hf.owner, hf.clean, fun i hi => ?_, fun b => hf.toBarePage.containsBlock b⟩
    have h1 := Mem.getElem?_read (c.engine.searchIndex p).data 0 hi
    rw [hf.zero, List.getElem?_replicate, if_pos hi, Option.some.injEq, zero_add] at h1
    exact h1.symm
  owned_page := fun o s p hs hp => by
    obtain ⟨b, hb⟩ := ((hG.rep.owned o s hs).2 p).mp hp
    have hu := hG.rep.usedPage hb
    obtain ⟨it, hit⟩ := Option.isSome_iff_exists.mp (hG.known p o b hb)
    obtain ⟨info, h1, h2, h3⟩ := (hG.items o it hit).reads p b hb (by simp)
    refine ⟨hu.owner, b, fun b' => ?_, hG.exact.entry_of p o b hb, it, info, hit, h1, h2, ?_⟩
    · rw [hu.containsBlock, decide_eq_true_eq]
    · rw [BlockOffsets.getReadableTo, h3, Map.lookup_single_self]
  info_arises := fun o it b info hit hinfo => by
    obtain ⟨p, hp, htp⟩ := (hG.items o it hit).infos b info hinfo (by simp)
    obtain ⟨s, m, hs, hm, hps⟩ := hG.rep.lookup_owner htp
    exact ⟨s, p, hs, hps, hp, by rw [(hG.rep.usedPage htp).containsBlock, decide_eq_true_eq]⟩
  entry_arises := fun o b en hen => by
    obtain ⟨h1, -⟩ := hG.exact.of_entry o b en hen
    obtain ⟨s, m, hs, hm, hps⟩ := hG.rep.lookup_owner h1
    exact ⟨s, hs, hps, by rw [(hG.rep.usedPage h1).containsBlock, decide_eq_true_eq]⟩

/-- A fresh cache represents the empty table. -/
lemma Cache.good_new (h : OnePage cfg) : (Cache.new cfg).Good cfg fun _ => none where
  rep := rep_new h.oneBlock
  exact :=
    { of_entry := fun o b en he => by
        simp only [entry, Cache.new, Engine.new, AList.lookup_empty, Option.bind_none] at he
        cases he
      entry_of := fun p o b hp => by cases hp }
  items := fun o it ho => by
    simp only [Cache.new, AList.lookup_empty] at ho
    cases ho
  known := fun p o b hp => by cases hp

/-- One operation keeps the cache in order and throws nothing, with eviction off. -/
lemma CacheOp.run_good (h : OnePage cfg) (hl : cfg.applyLruEviction = false) (op : CacheOp)
    (hop : op.Labelled) (hG : c.Good cfg tbl) (d : Disk) :
    ∃ c' d' tbl', op.run cfg (c, d) = some (c', d') ∧ c'.Good cfg tbl' := by
  cases op with
  | putDataBlocks cid blocks op =>
      obtain ⟨c', res, tbl', h1, h2⟩ := hG.putDataBlocks h hop blocks op d
        (fun hl' => by rw [hl] at hl'; cases hl') (fun _ _ hl' => by rw [hl] at hl'; cases hl')
      exact ⟨c', d, tbl', by rw [CacheOp.run, h1]; rfl, h2.good⟩
  | getDataBlocks cid blocks =>
      obtain ⟨c', found, buffers, h1, h2, -⟩ := hG.getDataBlocks cid blocks
      exact ⟨c', d, tbl, by rw [CacheOp.run, h1]; rfl, h2⟩
  | truncateItem owner newSize =>
      obtain ⟨c', r, tbl', h1, h2⟩ := hG.truncateItem h owner newSize
      exact ⟨c', d, tbl', by rw [CacheOp.run, h1]; rfl, h2⟩
  | syncOwner owner only path io =>
      obtain ⟨c', d', r, h1, h2⟩ := hG.syncOwner d owner only path io
      exact ⟨c', d', tbl, by rw [CacheOp.run, h1]; rfl, h2⟩
  | renameItem oldCid newCid =>
      obtain ⟨tbl', h1⟩ := hG.renameItem h oldCid newCid
      exact ⟨_, d, tbl', rfl, h1⟩
  | removeCachedItem owner path isFromCache =>
      obtain ⟨tbl', h1⟩ := hG.removeCachedItem h owner path isFromCache
      exact ⟨_, d, tbl', rfl, h1⟩
  | clearAllCache =>
      obtain ⟨tbl', h1⟩ := hG.clearAllCache h
      exact ⟨_, d, tbl', rfl, h1⟩
  | insertInodeMapping path inode increase =>
      exact ⟨_, d, tbl, rfl, hG.insertInodeMapping path inode increase⟩
  | updateContentMetadata cid newMeta values =>
      exact ⟨_, d, tbl, rfl, hG.updateContentMetadata cid newMeta values⟩

/-- With eviction off, every sequence of operations from a fresh cache runs to its end and leaves a
cache that represents a table. -/
lemma good_of_run (h : OnePage cfg) (hl : cfg.applyLruEviction = false) (d : Disk)
    (ops : List CacheOp) (hops : ∀ op ∈ ops, op.Labelled) :
    ∃ c d' tbl, Runs.run (CacheOp.run cfg) (Cache.new cfg, d) ops = some (c, d') ∧
    c.Good cfg tbl := by
  have key : ∀ ops : List CacheOp, (∀ op ∈ ops, op.Labelled) →
      ∀ (c : Cache) (tbl : PageTable) (d : Disk), c.Good cfg tbl →
      ∃ c' d' tbl', Runs.run (CacheOp.run cfg) (c, d) ops = some (c', d') ∧ c'.Good cfg tbl' := by
    intro ops
    induction ops with
    | nil => exact fun _ c tbl d hG => ⟨c, d, tbl, rfl, hG⟩
    | cons op ops ih =>
        intro hops c tbl d hG
        obtain ⟨c1, d1, tbl1, h1, hG1⟩ := op.run_good h hl (hops op List.mem_cons_self) hG d
        obtain ⟨c', d', tbl', h2, hG'⟩ :=
          ih (fun op hop => hops op (List.mem_cons_of_mem _ hop)) c1 tbl1 d1 hG1
        exact ⟨c', d', tbl', by rw [Runs.run_cons, h1, Option.bind_some, h2], hG'⟩
  exact key ops hops (Cache.new cfg) _ d (Cache.good_new h)

/-- **The representation invariant**: with eviction off, every sequence of operations from a fresh
cache runs to its end and leaves the two layers in agreement. -/
theorem repInv_of_run (h : OnePage cfg) (hl : cfg.applyLruEviction = false) (d : Disk)
    (ops : List CacheOp) (hops : ∀ op ∈ ops, op.Admissible cfg) :
    ∃ c d', Runs.run (CacheOp.run cfg) (Cache.new cfg, d) ops = some (c, d') ∧ c.RepInv cfg := by
  obtain ⟨c, d', tbl, h1, hG⟩ := good_of_run h hl d ops fun op hop => (hops op hop).labelled
  exact ⟨c, d', h1, hG.repInv⟩

/-- Two pages, a third block that finds none, a truncation inside a block, a write-back and the
removal of the file. -/
theorem repInv_of_run_tiny :
    ∃ c d', Runs.run (CacheOp.run (.tiny 2 false)) (Cache.new (.tiny 2 false),
        (⟨∅, fun _ => [], fun _ => default, List.length, []⟩ : Disk))
      [.putDataBlocks "7" (Map.single 0 ⟨fun _ => 1, 4, 0, 3⟩) .opWrite,
        .putDataBlocks "8" (Map.single 1 ⟨fun _ => 2, 2, 1, 2⟩) .opWrite,
        .putDataBlocks "7" (Map.single 1 ⟨fun _ => 3, 4, 0, 3⟩) .opWrite,
        .truncateItem "7" 2, .syncOwner "8" false ["b"]
        {}, .getDataBlocks "7" (Map.single 0 fun _ => 0),
        .removeCachedItem "7" ["a"] true] = some (c, d') ∧ c.RepInv (.tiny 2 false) := by
  refine repInv_of_run (Config.onePage_tiny 2 false) rfl _ _ ?_
  simp [CacheOp.Admissible, Map.lookup_single, Config.tiny]

end LazyFS
