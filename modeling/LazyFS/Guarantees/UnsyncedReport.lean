import LazyFS.Rep.Invariant
import LazyFS.Rep.Marks

/-!
**The report of unsynced data**.

* `CacheOp.track`: a run of the cache with the set of blocks whose page a put modified since it was
  last handed to `pwritev`.
* `Cache.ReportExact`: the report lists these blocks, as far as they are in a page.
* `reportExact_of_run`: it does after every sequence of operations with eviction off.
* `report_misses_none`: a content with the label of a free page loses its entries.
-/

namespace LazyFS

open Engine

variable {cfg : Config} {c c' : Cache} {tbl : PageTable}

/-! ### The lists of the report -/

/-- The loop over the blocks of one owner, all of which have a readable end. -/
lemma dirtyInfoLoop_spec (e : Engine) {l : List (ℤ × OrderedEntry)} (hnd : (l.map Prod.fst).Nodup)
    (hl : ∀ x ∈ l, ((e.searchIndex x.2.pageId).allocatedBlockIds.getReadableTo x.1).isSome) :
    ∃ res, e.dirtyInfoLoop l = some res ∧ (res.map Prod.fst).Nodup ∧
      ∀ b offs p, (b, offs, p) ∈ res ↔ ∃ en r, (b, en) ∈ l ∧ en.isSynced = false ∧
        en.pageId = p ∧ (e.searchIndex p).allocatedBlockIds.getReadableTo b = some r ∧
        offs = (0, r) := by
  induction l with
  | nil => exact ⟨[], rfl, List.nodup_nil, by simp⟩
  | cons x l ih =>
      obtain ⟨blk, entry⟩ := x
      rw [List.map_cons, List.nodup_cons] at hnd
      obtain ⟨r, hr⟩ := Option.isSome_iff_exists.mp (hl _ List.mem_cons_self)
      obtain ⟨res, hres, hnodup, hmem⟩ := ih hnd.2 fun x hx => hl x (List.mem_cons_of_mem _ hx)
      -- the block is not listed again
      have hnew : blk ∉ res.map Prod.fst := by
        intro hin
        obtain ⟨⟨b, offs, p⟩, hin', rfl⟩ := List.mem_map.mp hin
        obtain ⟨en, -, hen, -⟩ := (hmem b offs p).mp hin'
        exact hnd.1 (List.mem_map.mpr ⟨_, hen, rfl⟩)
      refine ⟨if entry.isSynced then res else (blk, (0, r), entry.pageId) :: res, ?_, ?_,
        fun b offs p => ?_⟩
      · rw [Engine.dirtyInfoLoop, hr, hres]
        rfl
      · split_ifs
        · exact hnodup
        · rw [List.map_cons, List.nodup_cons]
          exact ⟨hnew, hnodup⟩
      · -- it is listed exactly when its entry is not synced
        cases hs : entry.isSynced
        · rw [if_neg Bool.false_ne_true, List.mem_cons, hmem, Prod.mk.injEq, Prod.mk.injEq]
          constructor
          · rintro (⟨rfl, rfl, rfl⟩ | ⟨en, r', hen, h⟩)
            · exact ⟨entry, r, List.mem_cons_self, hs, rfl, hr, rfl⟩
            · exact ⟨en, r', List.mem_cons_of_mem _ hen, h⟩
          · rintro ⟨en, r', hen, hsy, hid, hr', rfl⟩
            rcases List.mem_cons.mp hen with heq | hen
            · rw [Prod.mk.injEq] at heq
              obtain ⟨rfl, rfl⟩ := heq
              rw [← hid, hr, Option.some.injEq] at hr'
              exact .inl ⟨rfl, by rw [hr'], hid.symm⟩
            · exact .inr ⟨en, r', hen, hsy, hid, hr', rfl⟩
        · rw [if_pos rfl, hmem]
          constructor
          · rintro ⟨en, r', hen, h⟩
            exact ⟨en, r', List.mem_cons_of_mem _ hen, h⟩
          · rintro ⟨en, r', hen, hsy, h⟩
            rcases List.mem_cons.mp hen with heq | hen
            · rw [Prod.mk.injEq] at heq
              rw [heq.2, hs] at hsy
              cases hsy
            · exact ⟨en, r', hen, hsy, h⟩

/-- The blocks that a report lists, with their ranges. -/
def listing (report : List (String × ℕ × List (ℤ × (ℤ × ℤ) × ℕ))) : List ((String × ℤ) × ℤ × ℤ) :=
  report.flatMap fun r => r.2.2.map fun i => ((r.1, i.1), i.2.1)

/-- The loop over the items, all of which have their list of blocks. -/
lemma reportLoop_spec (e : Engine) {l : List (String × Item)} (hnd : (l.map Prod.fst).Nodup)
    (hl : ∀ x ∈ l, ∃ info, e.getDirtyBlocksInfo x.1 = some info ∧ (info.map Prod.fst).Nodup) :
    ∃ rep, Cache.reportLoop e l = some rep ∧ ((listing rep).map Prod.fst).Nodup ∧
      ∀ cid b offs, ((cid, b), offs) ∈ listing rep ↔ ∃ it info p, (cid, it) ∈ l ∧
        it.dataSynced = false ∧ e.getDirtyBlocksInfo cid = some info ∧ (b, offs, p) ∈ info := by
  induction l with
  | nil => exact ⟨[], rfl, List.nodup_nil, by simp [listing]⟩
  | cons x l ih =>
      obtain ⟨o, it⟩ := x
      rw [List.map_cons, List.nodup_cons] at hnd
      obtain ⟨info, hinfo, hnodup⟩ := hl _ List.mem_cons_self
      obtain ⟨rep, hrep, hnd', hmem⟩ := ih hnd.2 fun x hx => hl x (List.mem_cons_of_mem _ hx)
      -- an item that is not synced adds its dirty blocks, and a synced one nothing
      cases hs : it.dataSynced
      · refine ⟨(o, 0, info) :: rep, ?_, ?_, fun cid b offs => ?_⟩
        · rw [Cache.reportLoop, hs, if_neg Bool.false_ne_true, hinfo, hrep]
          rfl
        · rw [listing, List.flatMap_cons, List.map_append, List.map_map]
          refine List.Nodup.append ?_ hnd' fun k h1 h2 => ?_
          · have hpair : (info.map (Prod.fst ∘ fun i : ℤ × (ℤ × ℤ) × ℕ => ((o, i.1), i.2.1)))
                = (info.map Prod.fst).map fun b => (o, b) := by rw [List.map_map]; rfl
            rw [hpair]
            exact hnodup.map fun a b h => (Prod.mk.injEq _ _ _ _ ▸ h).2
          · obtain ⟨i, -, rfl⟩ := List.mem_map.mp h1
            obtain ⟨⟨⟨cid, b⟩, offs⟩, h2, heq⟩ := List.mem_map.mp h2
            obtain ⟨it', -, -, hin, -⟩ := (hmem cid b offs).mp h2
            have hcid : cid = o := congrArg Prod.fst heq
            exact hnd.1 (List.mem_map.mpr ⟨_, hin, hcid⟩)
        · rw [listing, List.flatMap_cons, List.mem_append, ← listing, hmem]
          constructor
          · rintro (h | ⟨it', info', p, hin, h⟩)
            · obtain ⟨⟨b', offs', p⟩, hi, heq⟩ := List.mem_map.mp h
              simp only [Prod.mk.injEq] at heq
              obtain ⟨⟨rfl, rfl⟩, rfl⟩ := heq
              exact ⟨it, info, p, List.mem_cons_self, hs, hinfo, hi⟩
            · exact ⟨it', info', p, List.mem_cons_of_mem _ hin, h⟩
          · rintro ⟨it', info', p, hin, hs', hinfo', hi⟩
            rcases List.mem_cons.mp hin with heq | hin
            · rw [Prod.mk.injEq] at heq
              obtain ⟨rfl, rfl⟩ := heq
              rw [hinfo, Option.some.injEq] at hinfo'
              exact .inl (List.mem_map.mpr ⟨(b, offs, p), hinfo' ▸ hi, rfl⟩)
            · exact .inr ⟨it', info', p, hin, hs', hinfo', hi⟩
      · refine ⟨rep, ?_, hnd', fun cid b offs => ?_⟩
        · rw [Cache.reportLoop, hs, if_pos rfl, hrep]
        · rw [hmem]
          constructor
          · rintro ⟨it', info', p, hin, h⟩
            exact ⟨it', info', p, List.mem_cons_of_mem _ hin, h⟩
          · rintro ⟨it', info', p, hin, hs', h⟩
            rcases List.mem_cons.mp hin with heq | hin
            · rw [Prod.mk.injEq] at heq
              rw [heq.2, hs] at hs'
              cases hs'
            · exact ⟨it', info', p, hin, hs', h⟩

/-! ### The blocks that a put modified -/

namespace CacheOp

/-- The blocks whose page a put modified since it was last handed to `pwritev`, after one
operation. -/
def touched (cfg : Config) (s : Cache × Disk) (g : Set (String × ℤ)) : CacheOp → Set (String × ℤ)
  | putDataBlocks cid blocks op =>
      match s.1.putDataBlocks cfg s.2 cid blocks op with
      | none => g
      | some (_, _, res) => g ∪ {k | k.1 = cid ∧ res.lookup k.2 = some true}
  | syncOwner owner _ _ _ =>
      match s.1.contents.lookup owner with
      | none => g
      | some _ => g \ {k | k.1 = owner ∧ k.2 ∈ (s.1.engine.handed owner).map Prod.fst}
  | _ => g

/-- One operation, with the set of modified blocks. -/
def track (cfg : Config) (s : (Cache × Disk) × Set (String × ℤ)) (op : CacheOp) :
    Option ((Cache × Disk) × Set (String × ℤ)) :=
  (op.run cfg s.1).map fun s' => (s', op.touched cfg s.1 s.2)

end CacheOp

/-- The report of `c` lists the blocks in pages that were modified, which are the blocks in dirty
pages, once each and with the range up to the readable end. -/
structure Cache.ReportExact (cfg : Config) (c : Cache) (g : Set (String × ℤ))
    (rep : List (String × ℕ × List (ℤ × (ℤ × ℤ) × ℕ))) : Prop where
  listed : ∀ cid b offs, ((cid, b), offs) ∈ listing rep ↔
    ∃ p, c.engine.isBlockCached cfg cid (some p) b = true ∧ (cid, b) ∈ g ∧
      ∃ r, (c.engine.searchIndex p).allocatedBlockIds.getReadableTo b = some r ∧ offs = (0, r)
  dirty : ∀ cid b p, c.engine.isBlockCached cfg cid (some p) b = true →
    ((cid, b) ∈ g ↔ (c.engine.searchIndex p).isDirty = true)
  once : ((listing rep).map Prod.fst).Nodup

/-- The marks of the blocks are those of the modified blocks. -/
def Cache.Traced (c : Cache) (g : Set (String × ℤ)) : Prop :=
  ∀ o b synced, c.engine.mark o b = some synced → ((o, b) ∈ g ↔ synced = false)

/-- An operation that only drops blocks. -/
lemma Cache.Forgets.traced {g : Set (String × ℤ)} (hf : c.Forgets cfg c') (hT : c.Traced g) :
    c'.Traced g := by
  intro o b synced hm
  rcases hf.marks o b with h | h
  · exact hT o b synced (h ▸ hm)
  · rw [h] at hm
    cases hm

/-- **One operation** runs, keeps the cache in order and its marks right. -/
theorem CacheOp.track_keeps (h : OnePage cfg) (hl : cfg.applyLruEviction = false)
    {s : (Cache × Disk) × Set (String × ℤ)} {op : CacheOp}
    (hs : s.1.1.InOrder cfg ∧ s.1.1.Traced s.2) (hop : op.Labelled) :
    ∃ s', op.track cfg s = some s' ∧ s'.1.1.InOrder cfg ∧ s'.1.1.Traced s'.2 := by
  obtain ⟨⟨c, d⟩, g⟩ := s
  obtain ⟨hc, hT⟩ := hs
  have hforget : ∀ {c' : Cache}, op.run cfg (c, d) = some (c', d) → op.touched cfg (c, d) g = g →
      c.Forgets cfg c' → ∃ s', op.track cfg ((c, d), g) = some s' ∧ s'.1.1.InOrder cfg ∧
        s'.1.1.Traced s'.2 := by
    intro c' h1 h2 h3
    exact ⟨((c', d), g), by rw [CacheOp.track, h1, h2]; rfl, h3.inOrder, h3.traced hT⟩
  obtain ⟨⟨tbl, hG⟩, hM⟩ := hc
  obtain ⟨c', d', tbl', hrun, hG'⟩ := op.run_good h hl hop hG d
  cases op with
  | putDataBlocks cid blocks op =>
      obtain ⟨⟨c1, d1, res⟩, hput, heq⟩ := Option.map_eq_some_iff.mp hrun
      obtain ⟨rfl, rfl⟩ := Prod.mk.injEq _ _ _ _ ▸ heq
      obtain ⟨hM', hmark, hkeys⟩ := hG.putDataBlocks_marks h hM hop hl hput
      refine ⟨((c1, d1), g ∪ {k | k.1 = cid ∧ res.lookup k.2 = some true}), ?_, ⟨⟨tbl', hG'⟩, hM'⟩,
        fun o b synced hm => ?_⟩
      · rw [CacheOp.track, hrun, CacheOp.touched]
        dsimp only at hput ⊢
        rw [hput]
        rfl
      · rw [hmark] at hm
        split_ifs at hm with hob hres
        · rw [← Option.some.inj hm]
          exact iff_of_true (.inr ⟨hob.1, hres⟩) rfl
        · rw [← hT o b synced hm]
          refine ⟨fun hor => hor.resolve_right ?_, .inl⟩
          rintro ⟨ho, hres⟩
          exact hob ⟨ho, hkeys b hres⟩
  | getDataBlocks cid blocks =>
      obtain ⟨⟨c1, found, buffers⟩, hget, heq⟩ := Option.map_eq_some_iff.mp hrun
      obtain ⟨rfl, rfl⟩ := Prod.mk.injEq _ _ _ _ ▸ heq
      obtain ⟨hM', hmark⟩ := hG.getDataBlocks_marks hM hget
      exact hforget hrun rfl ⟨⟨⟨tbl', hG'⟩, hM'⟩, fun o b => .inl (hmark o b)⟩
  | truncateItem owner newSize =>
      obtain ⟨⟨c1, r⟩, htrunc, heq⟩ := Option.map_eq_some_iff.mp hrun
      obtain ⟨rfl, rfl⟩ := Prod.mk.injEq _ _ _ _ ▸ heq
      obtain ⟨hM', hmark⟩ := hG.truncateItem_marks h hM htrunc
      exact hforget hrun rfl ⟨⟨⟨tbl', hG'⟩, hM'⟩, fun o b => (hmark o b).imp_right And.right⟩
  | syncOwner owner only path io =>
      obtain ⟨⟨c1, d1, r⟩, hsync, heq⟩ := Option.map_eq_some_iff.mp hrun
      obtain ⟨rfl, rfl⟩ := Prod.mk.injEq _ _ _ _ ▸ heq
      obtain ⟨hM', hmark⟩ := hG.syncOwner_marks hM hsync
      refine ⟨((c1, d1), _), by rw [CacheOp.track, hrun]; rfl, ⟨⟨tbl', hG'⟩, hM'⟩,
        fun o b synced hm => ?_⟩
      rw [hmark] at hm
      dsimp only [CacheOp.touched]
      cases hit : c.contents.lookup owner with
      | none =>
          dsimp only
          split_ifs at hm with ho
          · rw [hG.mark_eq_none hit] at hm
            cases hm
          · exact hT o b synced hm
      | some it =>
          dsimp only
          split_ifs at hm with ho
          · -- every block of the owner is marked, and those that were not are handed to `pwritev`
            obtain ⟨old, hold, rfl⟩ := Option.map_eq_some_iff.mp hm
            refine iff_of_false (fun hin => ?_) (by simp)
            subst ho
            obtain ⟨en, hen, hsy⟩ := Option.map_eq_some_iff.mp hold
            have hfalse : old = false := (hT o b old hold).mp hin.1
            refine hin.2 ⟨rfl, List.mem_map.mpr ⟨(b, en), hG.exact.mem_handed.mpr ⟨hen, ?_⟩, rfl⟩⟩
            rw [hM.flagged o b en hen, hsy, hfalse]
            rfl
          · rw [← hT o b synced hm]
            exact ⟨And.left, fun hin => ⟨hin, fun hc => ho hc.1⟩⟩
  | renameItem oldCid newCid =>
    exact hforget rfl rfl (Cache.InOrder.renameItem h ⟨⟨tbl, hG⟩, hM⟩ _ _)
  | removeCachedItem owner path isFromCache =>
      exact hforget rfl rfl (Cache.InOrder.removeCachedItem h ⟨⟨tbl, hG⟩, hM⟩ _ _ _)
  | clearAllCache => exact hforget rfl rfl (Cache.InOrder.clearAllCache h ⟨⟨tbl, hG⟩, hM⟩)
  | insertInodeMapping path inode increase =>
      exact hforget rfl rfl (Cache.InOrder.insertInodeMapping ⟨⟨tbl, hG⟩, hM⟩ _ _ _)
  | updateContentMetadata cid newMeta values =>
      exact hforget rfl rfl (Cache.InOrder.updateContentMetadata ⟨⟨tbl, hG⟩, hM⟩ _ _ _)

/-- A cache in order with the right marks reports exactly. -/
theorem Cache.InOrder.reportExact {g : Set (String × ℤ)} (hc : c.InOrder cfg) (hT : c.Traced g) :
    ∃ rep, c.reportUnsyncedData cfg = some rep ∧ c.ReportExact cfg g rep := by
  obtain ⟨⟨tbl, hG⟩, hM⟩ := hc
  have hreads : ∀ o b en, c.engine.entry o b = some en → ∃ r,
      (c.engine.searchIndex en.pageId).allocatedBlockIds.getReadableTo b = some r := by
    intro o b en hen
    obtain ⟨htbl, -⟩ := hG.exact.of_entry o b en hen
    obtain ⟨it, hit⟩ := Option.isSome_iff_exists.mp (hG.known _ o b htbl)
    obtain ⟨info, -, -, h3⟩ := (hG.items o it hit).reads _ b htbl (by simp)
    exact ⟨info.readableOffset.2, by rw [BlockOffsets.getReadableTo, h3, Map.lookup_single_self]⟩
  -- the blocks listed for one owner
  have hinfo : ∀ o, ∃ info, c.engine.getDirtyBlocksInfo o = some info ∧ (info.map Prod.fst).Nodup ∧
      ∀ b offs p, (b, offs, p) ∈ info ↔ ∃ en r, c.engine.entry o b = some en ∧
        en.isSynced = false ∧ en.pageId = p ∧
        (c.engine.searchIndex p).allocatedBlockIds.getReadableTo b = some r ∧ offs = (0, r) := by
    intro o
    rw [Engine.getDirtyBlocksInfo]
    simp only [Engine.entry]
    cases hm : c.engine.ownerOrderedPagesMapping.lookup o with
    | none => exact ⟨[], rfl, List.nodup_nil, by simp⟩
    | some m =>
        obtain ⟨res, h1, h2, h3⟩ := dirtyInfoLoop_spec c.engine (Map.nodup_map_fst_sorted m)
          fun x hx => by
            obtain ⟨b, en⟩ := x
            rw [Map.mem_sorted] at hx
            obtain ⟨r, hr⟩ := hreads o b en (by rw [Engine.entry, hm, Option.bind_some, hx])
            rw [hr]
            rfl
        refine ⟨res, h1, h2, fun b offs p => ?_⟩
        rw [h3]
        simp only [Map.mem_sorted, Option.bind_some]
  -- the owners together
  have hperm := cfg.unordered_perm c.contents.toList
  obtain ⟨rep, hrep, hnodup, hmem⟩ := reportLoop_spec c.engine
    ((hperm.map Prod.fst).nodup_iff.mpr (Map.nodup_map_fst_toList _)) fun x _ => by
      obtain ⟨info, h1, h2, -⟩ := hinfo x.1
      exact ⟨info, h1, h2⟩
  have hcached : ∀ cid b p, c.engine.isBlockCached cfg cid (some p) b = true ↔
      tbl p = some (cid, b) := by
    intro cid b p
    rw [hG.rep.isBlockCached_iff]
    constructor
    · rintro ⟨q, hq, hp⟩
      rw [Option.some.inj hq, hp]
    · exact fun hp => ⟨p, rfl, hp⟩
  refine ⟨rep, hrep, fun cid b offs => ?_, fun cid b p hp => ?_, hnodup⟩
  · rw [hmem]
    constructor
    · rintro ⟨it, info, p, hit, -, hi, hin⟩
      obtain ⟨info', hi', -, h3⟩ := hinfo cid
      rw [hi, Option.some.injEq] at hi'
      obtain ⟨en, r, hen, hsy, hid, hr, hoffs⟩ := (h3 b offs p).mp (hi' ▸ hin)
      refine ⟨p, (hcached cid b p).mpr (hid ▸ (hG.exact.of_entry cid b en hen).1), ?_, r, hr, hoffs⟩
      exact (hT cid b false (by rw [Engine.mark, hen, ← hsy]; rfl)).mpr rfl
    · rintro ⟨p, hp, hin, r, hr, hoffs⟩
      have htbl := (hcached cid b p).mp hp
      obtain ⟨en, hen, hid⟩ := hG.exact.entry_of p cid b htbl
      obtain ⟨it, hit⟩ := Option.isSome_iff_exists.mp (hG.known p cid b htbl)
      have hmark : c.engine.mark cid b = some en.isSynced := by rw [Engine.mark, hen]; rfl
      have hsy : en.isSynced = false := (hT cid b _ hmark).mp hin
      obtain ⟨info, hi, -, h3⟩ := hinfo cid
      refine ⟨it, info, p, hperm.mem_iff.mpr (Map.mem_toList.mpr hit), ?_, hi,
        (h3 b offs p).mpr ⟨en, r, hen, hsy, hid, hr, hoffs⟩⟩
      by_contra hds
      rw [Bool.not_eq_false] at hds
      exact hM.items cid it hit hds b (hsy ▸ hmark)
  · have hmark := hM.flagged.isDirty_eq hG.exact ((hcached cid b p).mp hp)
    rw [hT cid b _ hmark, Bool.not_eq_false']

/-- **The report is exact** after every sequence of operations from a fresh cache, with eviction
off. -/
theorem reportExact_of_run (h : OnePage cfg) (hl : cfg.applyLruEviction = false) (d : Disk)
    (ops : List CacheOp) (hops : ∀ op ∈ ops, op.Labelled) :
    ∃ s rep, Runs.run (CacheOp.track cfg) ((Cache.new cfg, d), ∅) ops = some s ∧
      s.1.1.reportUnsyncedData cfg = some rep ∧ s.1.1.ReportExact cfg s.2 rep := by
  have hnew : (Cache.new cfg).InOrder cfg ∧ (Cache.new cfg).Traced ∅ := by
    have hmark : ∀ o b, (Cache.new cfg).engine.mark o b = none :=
      fun o b => (Cache.good_new h).exact.mark_eq_none fun p hp => by cases hp
    refine ⟨⟨⟨_, Cache.good_new h⟩, fun o b en hen => ?_, fun o it ho hs b => ?_⟩,
      fun o b synced hm => ?_⟩
    · have := hmark o b
      rw [Engine.mark, hen] at this
      cases this
    · rw [hmark]
      simp
    · rw [hmark] at hm
      cases hm
  have hguard : Runs.Guarded (CacheOp.track cfg) (fun _ op => op.Labelled)
      ((Cache.new cfg, d), ∅) ops :=
    Runs.guarded_of_forall hops
  obtain ⟨s, hrun, hc, hT⟩ := Runs.run_of_guarded
    (P := fun s => s.1.1.InOrder cfg ∧ s.1.1.Traced s.2)
    (fun s op hs hop => CacheOp.track_keeps h hl hs hop) hnew hguard
  obtain ⟨rep, hrep, hexact⟩ := hc.reportExact hT
  exact ⟨s, rep, hrun, hrep, hexact⟩

/-- A put, a write-back, a put over the same block and a put that finds the second page. -/
theorem reportExact_of_run_tiny : ∃ s rep,
    Runs.run (CacheOp.track (.tiny 2 false)) ((Cache.new (.tiny 2 false), Disk.empty), ∅)
      [.putDataBlocks "7" (Map.single 0 ⟨fun _ => 1, 4, 0, 3⟩) .opWrite,
        .syncOwner "7" false ["a"] {},
        .putDataBlocks "7" (Map.single 0 ⟨fun _ => 2, 2, 1, 2⟩) .opWrite,
        .putDataBlocks "8" (Map.single 1 ⟨fun _ => 3, 2, 0, 1⟩) .opWrite] = some s ∧
      s.1.1.reportUnsyncedData (.tiny 2 false) = some rep ∧
      s.1.1.ReportExact (.tiny 2 false) s.2 rep := by
  refine reportExact_of_run (Config.onePage_tiny 2 false) rfl Disk.empty _ ?_
  simp [CacheOp.Labelled]

/-! ### A content with the label of a free page -/

/-- Block 0 of a content named like the owner of a free page, and block 0 of another content. -/
def sharedLabel : List CacheOp :=
  [.putDataBlocks "none" (Map.single 0 ⟨fun _ => 1, 4, 0, 3⟩) .opWrite,
    .putDataBlocks "x" (Map.single 0 ⟨fun _ => 2, 4, 0, 3⟩) .opWrite]

/-- **The report misses** a dirty block of the content `"none"`: the page given to the other content
still has the label of a free page, and the entry of block 0 is taken out under that label. -/
theorem report_misses_none : ¬ ∃ s rep,
    Runs.run (CacheOp.track (.tiny 2 false))
    ((Cache.new (.tiny 2 false), Disk.empty), ∅) sharedLabel
      = some s ∧ s.1.1.reportUnsyncedData (.tiny 2 false) = some rep ∧
      s.1.1.ReportExact (.tiny 2 false) s.2 rep := by
  rintro ⟨s, rep, hrun, hrep, hexact⟩
  have hval : (Runs.run (CacheOp.track (.tiny 2 false)) ((Cache.new (.tiny 2 false), Disk.empty), ∅)
      sharedLabel).map (fun s => (s.1.1.engine.isBlockCached (.tiny 2 false) "none" (some 1) 0,
        (s.1.1.engine.searchIndex 1).isDirty,
        (s.1.1.engine.searchIndex 1).allocatedBlockIds.getReadableTo 0))
      = some (true, true, some 3) := by decide +kernel
  have hlist : (Runs.run (CacheOp.track (.tiny 2 false))
      ((Cache.new (.tiny 2 false), Disk.empty), ∅)
      sharedLabel).map (fun s => (s.1.1.reportUnsyncedData (.tiny 2 false)).map
        fun rep => (listing rep).map Prod.fst) = some (some [("x", 0)]) := by decide +kernel
  rw [hrun, Option.map_some, Option.some.injEq] at hval hlist
  rw [hrep, Option.map_some, Option.some.injEq] at hlist
  simp only [Prod.mk.injEq] at hval
  have hin := (hexact.dirty "none" 0 1 hval.1).mpr hval.2.1
  have hlisted := (hexact.listed "none" 0 (0, 3)).mpr ⟨1, hval.1, hin, 3, hval.2.2, rfl⟩
  have hmem : ("none", (0 : ℤ)) ∈ (listing rep).map Prod.fst := List.mem_map.mpr ⟨_, hlisted, rfl⟩
  rw [hlist] at hmem
  simp at hmem

end LazyFS
