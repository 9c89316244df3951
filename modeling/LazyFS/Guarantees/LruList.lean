import LazyFS.Rep.Split
import LazyFS.Rep.Sync
import LazyFS.Model.Cache
import LazyFS.Support.Runs

/-!
**The structure of the LRU list** after any calls of the cache.

* `CacheCall`: the calls of the cache, with the disk; `CacheCall.erasures`: the pages whose
  iterators a call takes out of the list, with the engine at that moment.
* `Engine.LruStructure`: the list, the iterators and the free list fit together.
* `lruStructure`: they do in every state reached, and no iterator that is taken out is stale.
-/

namespace LazyFS

open Engine

variable {cfg : Config}

/-! ### The calls -/

/-- A call of the cache. -/
inductive CacheCall where
  | putDataBlocks (cid : String) (blocks : Map ℤ BlockPut) (op : AllocateOperationType)
  | getDataBlocks (cid : String) (blocks : Map ℤ Mem)
  | truncateItem (owner : String) (newSize : ℕ)
  | syncOwner (owner : String) (onlySyncData : Bool) (origPath : Path) (io : SyncIo)
  | removeCachedItem (owner : String) (path : Path) (isFromCache : Bool)
  | clearAllCache
  | insertInodeMapping (path : Path) (inode : String) (increase : Bool)
  | renameItem (oldCid newCid : Path)

namespace CacheCall

/-- The cache and the disk after a call, `none` for an exception. -/
def step (cfg : Config) (s : Cache × Disk) : CacheCall → Option (Cache × Disk)
  | putDataBlocks cid blocks op => (s.1.putDataBlocks cfg s.2 cid blocks op).map fun r =>
    (r.1, r.2.1)
  | getDataBlocks cid blocks => (s.1.getDataBlocks cfg cid blocks).map fun r => (r.1, s.2)
  | truncateItem owner newSize => (s.1.truncateItem cfg owner newSize).map fun r => (r.1, s.2)
  | syncOwner owner onlySyncData origPath io =>
      (s.1.syncOwner cfg s.2 owner onlySyncData origPath io).map fun r => (r.1, r.2.1)
  | removeCachedItem owner path isFromCache =>
    some ((s.1.removeCachedItem cfg owner path isFromCache).1, s.2)
  | clearAllCache => some (s.1.clearAllCache cfg, s.2)
  | insertInodeMapping path inode increase => some (s.1.insertInodeMapping path inode increase, s.2)
  | renameItem oldCid newCid => some (s.1.renameItem cfg oldCid newCid, s.2)

/-- A call on another content id than `none`. -/
def Named : CacheCall → Prop
  | putDataBlocks cid .. => cid ≠ "none"
  | getDataBlocks cid .. => cid ≠ "none"
  | truncateItem owner _ => owner ≠ "none"
  | _ => True

/-- A new cache. -/
def Start (cfg : Config) (s : Cache × Disk) : Prop := s.1 = .new cfg

end CacheCall

/-! ### What is taken out of the list -/

namespace Engine

/-- The page has an iterator, and it is not that of a node of the page. -/
def Stale (e : Engine) (p : ℕ) : Prop :=
  ∃ n, e.pageOrderMapping.lookup p = some n ∧ (n, p) ∉ e.lruMainVector

/-- One turn of `allocate_blocks` visits the page that it fills. -/
def allocateErasures (cfg : Config) (o : String) (s : Engine × Disk) (x : ℤ × BlockData) :
    List (Engine × ℕ) :=
  if s.1.isBlockCached cfg o x.2.pageId x.1 then []
  else
    match s.1.getNextFreePage cfg s.2 o with
    | some (e, _, some p) => [(e, p)]
    | _ => []

/-- The engine and the disk after one turn of `allocate_blocks`. -/
def allocateTurn (cfg : Config) (o : String) (op : AllocateOperationType) (s : Engine × Disk)
    (x : ℤ × BlockData) : Option (Engine × Disk) :=
  (s.1.allocateBlock cfg s.2 o x.1 x.2 op).map fun r => (r.1, r.2.1)

/-- One turn of `get_blocks` visits the page of a cached block. -/
def getErasures (cfg : Config) (o : String) (e : Engine) (x : ℤ × (Option ℕ × Mem × ℤ)) :
    List (Engine × ℕ) :=
  if e.isBlockCached cfg o x.2.1 x.1 then x.2.1.toList.map fun p => (e, p) else []

/-- The engine after one turn of `get_blocks`. -/
def getTurn (cfg : Config) (o : String) (e : Engine) (x : ℤ × (Option ℕ × Mem × ℤ)) :
    Option Engine :=
  some (Engine.getLoop cfg o [x] e (∅, ∅)).1

/-- `remove_cached_blocks` releases the pages of the owner one by one. -/
def removeErasures (cfg : Config) (e : Engine) (o : String) : List (Engine × ℕ) :=
  Runs.trace (fun e p => some (e.releasePage cfg p)) (fun e p => [(e, p)])
    { e with ownerFreePagesMapping := e.ownerFreePagesMapping.erase o }
    (cfg.unordered ((e.ownerPagesMapping.lookup o).getD []))

/-- One turn of `truncate_cached_blocks` releases the page of the block unless it is dirty. -/
def truncateErasures (cfg : Config) (o : String) (fromBlockId indexInsideBlock : ℤ) (e : Engine)
    (blk : ℤ × Option ℕ) : List (Engine × ℕ) :=
  match blk.2 with
  | none => []
  | some p =>
      match e.getPagePtr cfg p with
      | none => []
      | some page =>
          if page.isPageOwner o ∧ ¬ (blk.1 = fromBlockId ∧ 0 < indexInsideBlock) ∧
              ¬ (page.removeBlock cfg blk.1).isDirty = true then [(e, p)]
          else []

end Engine

namespace Cache

/-- `_create_item` as `put_data_blocks` calls it. -/
def created (c : Cache) (cid : String) : Cache :=
  if (!c.hasContentCached cid) = true then c.createItem cid else c

def removeCachedItemErasures (cfg : Config) (c : Cache) (owner : String) (isFromCache : Bool) :
    List (Engine × ℕ) :=
  match c.contents.lookup owner with
  | none => []
  | some it => if !isFromCache ∧ 1 < it.metadata.nlinks then
      [] else c.engine.removeErasures cfg owner

def renameItemErasures (cfg : Config) (c : Cache) (oldCid newCid : Path) : List (Engine × ℕ) :=
  match c.fileInodeMapping.lookup oldCid with
  | none => []
  | some _ =>
      let toRemoveInode := (c.fileInodeMapping.lookup newCid).getD ""
      match c.contents.lookup toRemoveInode with
      | none => []
      | some it => if 1 < it.metadata.nlinks then [] else c.engine.removeErasures cfg toRemoveInode

def clearAllCacheErasures (cfg : Config) (c : Cache) : List (Engine × ℕ) :=
  let items := cfg.unordered c.fileInodeMapping.toList
  let c1 := items.foldl (fun c it => (c.removeCachedItem cfg it.2 it.1 true).1) c
  Runs.trace (fun c it => some (Cache.removeCachedItem cfg c it.2 it.1 true).1)
      (fun c it => removeCachedItemErasures cfg c it.2 true) c items
    ++ Runs.trace (fun c cid => some (Cache.deleteItem cfg c cid))
      (fun c cid => c.engine.removeErasures cfg cid)
        c1 (cfg.unordered (c1.contents.toList.map Prod.fst))

end Cache

/-- The pages whose iterators a call takes out of the list, each with the engine at that moment. -/
def CacheCall.erasures (cfg : Config) (s : Cache × Disk) : CacheCall → List (Engine × ℕ)
  | putDataBlocks cid blocks op =>
      ((s.1.created cid).contents.lookup cid).elim [] fun it =>
        Runs.trace (allocateTurn cfg cid op) (allocateErasures cfg cid) (s.1.engine, s.2)
          (Cache.putMapping it (!s.1.hasContentCached cid) blocks.sorted ∅).sorted
  | getDataBlocks cid blocks =>
      (s.1.contents.lookup cid).elim [] fun it =>
        Runs.trace (getTurn cfg cid) (getErasures cfg cid) s.1.engine
          (Cache.getMapping cfg it blocks.sorted ∅).sorted
  | truncateItem owner newSize =>
      (s.1.contents.lookup owner).elim [] fun it =>
        if newSize = 0 then
          if 0 < it.data.countBlocks then s.1.engine.removeErasures cfg owner else []
        else
          let fromBlockId := toInt (newSize / cfg.ioBlockSize)
          let fromBlockIndex : ℤ := newSize % cfg.ioBlockSize
          Runs.trace (Engine.truncateBlock cfg owner fromBlockId fromBlockIndex)
            (truncateErasures cfg owner fromBlockId fromBlockIndex) s.1.engine
            (cfg.unordered (it.data.truncateBlocksAfter cfg fromBlockId fromBlockIndex).2.toList)
  | syncOwner .. => []
  | removeCachedItem owner _ isFromCache => s.1.removeCachedItemErasures cfg owner isFromCache
  | clearAllCache => s.1.clearAllCacheErasures cfg
  | insertInodeMapping .. => []
  | renameItem oldCid newCid => s.1.renameItemErasures cfg oldCid newCid

/-! ### The invariant -/

namespace Engine

variable {e e' : Engine} {o : String}

/-- The lists share the pages, and the owners have pages of their own. -/
structure Shared (cfg : Config) (e : Engine) : Prop where
  split : Split cfg e
  owned : Owned cfg e

lemma SameSplit.shared (h : SameSplit e e') (hE : Shared cfg e) : Shared cfg e' :=
  ⟨h.split hE.split, h.owned hE.owned⟩

/-- No iterator is stale. -/
lemma Shared.not_stale (hE : Shared cfg e) (p : ℕ) : ¬ Stale e p := fun ⟨n, hn, hout⟩ =>
  hout ((hE.split.lruOk.iter p n).mp hn)

namespace Shared

lemma new (cfg : Config) : Shared cfg (Engine.new cfg) where
  split := .new cfg
  owned := {
    nodup := fun _ _ hs => by rw [Engine.new, AList.lookup_empty] at hs; cases hs
    label := fun _ _ hs => by rw [Engine.new, AList.lookup_empty] at hs; cases hs
    noNone := AList.lookup_empty _
    rooms := fun _ _ hv => by rw [Engine.new, AList.lookup_empty] at hv; cases hv }

/-- The loop of `allocate_blocks`. -/
lemma allocateLoop (h : OneBlock cfg) (hl : cfg.applyLruEviction = true) (ho : o ≠ "none")
    {op : AllocateOperationType} (l : List (ℤ × BlockData)) {d d' : Disk} {res r : Map ℤ (Option ℕ)}
    (hE : Shared cfg e) (ha : Engine.allocateLoop cfg o op l e d res = some (e', d', r)) :
    Shared cfg e' := by
  induction l generalizing e d res with
  | nil =>
      cases ha
      exact hE
  | cons x l ih =>
      obtain ⟨⟨e1, d1, page⟩, h1, ha⟩ := Option.bind_eq_some_iff.mp ha
      obtain ⟨hS, hO⟩ := hE.split.allocateBlock hE.owned hl h ho h1
      exact ih ⟨hS, hO⟩ ha

/-- Every page that the loop of `allocate_blocks` visits has a good iterator, or none. -/
lemma allocateErasures (h : OneBlock cfg) (hl : cfg.applyLruEviction = true) (ho : o ≠ "none")
    {op : AllocateOperationType} (l : List (ℤ × BlockData)) {d : Disk} (hE : Shared cfg e) :
    ∀ x ∈ Runs.trace (allocateTurn cfg o op) (Engine.allocateErasures cfg o)
    (e, d) l, ¬ Stale x.1 x.2 := by
  refine Runs.forall_trace (P := fun s => Shared cfg s.1) (fun s a s' hs ha => ?_)
    (fun s a hs x hx => ?_)
    hE l
  · rw [allocateTurn, Option.map_eq_some_iff] at ha
    obtain ⟨⟨e1, d1, page⟩, h1, rfl⟩ := ha
    obtain ⟨hS, hO⟩ := hs.split.allocateBlock hs.owned hl h ho h1
    exact ⟨hS, hO⟩
  · rw [Engine.allocateErasures] at hx
    split_ifs at hx
    · cases hx
    · split at hx
      · rename_i e1 d1 p hnext
        obtain rfl := List.mem_singleton.mp hx
        obtain ⟨q, -, hp⟩ := hs.split.getNextFreePage hs.owned hl hnext
        -- the list is that of the engine before the page was handed out
        have hlist : e1.lruMainVector = s.1.lruMainVector := congrArg Prod.fst hp.lru
        have hiter : e1.pageOrderMapping = s.1.pageOrderMapping := congrArg (fun l => l.2.1) hp.lru
        rintro ⟨n, hn, hout⟩
        exact hs.not_stale p ⟨n, hiter ▸ hn, hlist ▸ hout⟩
      · cases hx

lemma makeBlockReadableToOffset (hE : Shared cfg e) {cid : String} {p : ℕ} {b r : ℤ}
    (h : e.makeBlockReadableToOffset cfg cid p b r = some e') : Shared cfg e' := by
  obtain ⟨page, hp, h⟩ := Option.bind_eq_some_iff.mp h
  rw [getPagePtr] at hp
  split_ifs at hp
  cases hp
  split_ifs at h
  · cases h
    have hsame : SameSplit e (e.setPage p ((e.searchIndex p).makeBlockReadableTo b r)) :=
      .setPage rfl fun _ => rfl
    exact hsame.shared hE
  · cases h
    exact hE

lemma removeCachedBlocks (hE : Shared cfg e) (hl : cfg.applyLruEviction = true) (o : String) :
    Shared cfg (e.removeCachedBlocks cfg o) := by
  obtain ⟨hS, hO⟩ := hE.split.removeCachedBlocks hE.owned hl o
  exact ⟨hS, hO⟩

/-- Every page that `remove_cached_blocks` releases has a good iterator, or none. -/
lemma removeErasures (hE : Shared cfg e) (hl : cfg.applyLruEviction = true) (o : String) :
    ∀ x ∈ e.removeErasures cfg o, ¬ Stale x.1 x.2 := by
  have hloop : ∀ (l : List ℕ) (e : Engine), l.Nodup → Split cfg e → (∀ p ∈ l, Busy cfg e p) →
      ∀ x ∈ Runs.trace (fun e p => some (e.releasePage cfg p)) (fun e p => [(e, p)]) e l,
        ¬ Stale x.1 x.2 := by
    intro l
    induction l with
    | nil => exact fun _ _ _ _ _ hx => (by cases hx)
    | cons p l ih =>
        intro e hnd hS hbusy x hx
        obtain ⟨hp, hnd'⟩ := List.nodup_cons.mp hnd
        rcases List.mem_cons.mp hx with rfl | hx
        · exact fun ⟨n, hn, hout⟩ => hout ((hS.lruOk.iter p n).mp hn)
        · refine ih (e.releasePage cfg p) hnd' (hS.releasePage hl (hbusy p List.mem_cons_self))
            (fun q hq => ?_) x hx
          exact (hbusy q (List.mem_cons_of_mem _ hq)).releasePage fun heq => hp (heq ▸ hq)
  have hperm := cfg.unordered_perm ((e.ownerPagesMapping.lookup o).getD [])
  refine hloop _ _ ?_ ⟨hE.split.nodup, hE.split.free, hE.split.bare, hE.split.lruOk.congr rfl,
    hE.split.listed⟩
    fun p hp => ?_
  · rw [hperm.nodup_iff]
    cases hs : e.ownerPagesMapping.lookup o with
    | none => exact List.nodup_nil
    | some s => exact hE.owned.nodup o s hs
  · rw [hperm.mem_iff] at hp
    cases hs : e.ownerPagesMapping.lookup o with
    | none =>
        rw [hs] at hp
        cases hp
    | some s =>
        rw [hs] at hp
        exact hE.owned.busy hE.split hs p hp

lemma truncateBlock (hE : Shared cfg e) (hl : cfg.applyLruEviction = true) (ho : o ≠ "none")
    {fromBlockId index : ℤ} {blk : ℤ × Option ℕ}
    (h : e.truncateBlock cfg o fromBlockId index blk = some e') : Shared cfg e' := by
  obtain ⟨hS, hO⟩ := hE.split.truncateBlock hE.owned hl ho h
  exact ⟨hS, hO⟩

/-- Every page that `truncate_cached_blocks` releases has a good iterator, or none. -/
lemma truncateErasures (hE : Shared cfg e) (hl : cfg.applyLruEviction = true) (ho : o ≠ "none")
    (fromBlockId index : ℤ) (l : List (ℤ × Option ℕ)) :
    ∀ x ∈ Runs.trace (Engine.truncateBlock cfg o fromBlockId index)
      (Engine.truncateErasures cfg o fromBlockId index) e l, ¬ Stale x.1 x.2 := by
  refine Runs.forall_trace (P := Shared cfg) (fun e blk e' hE h => hE.truncateBlock hl ho h)
    (fun e blk hE x hx => ?_) hE l
  rw [Engine.truncateErasures] at hx
  split at hx
  · cases hx
  · split at hx
    · cases hx
    · split_ifs at hx
      · obtain rfl := List.mem_singleton.mp hx
        exact hE.not_stale _
      · cases hx

/-- Every page that the loop of `get_blocks` visits has a good iterator, or none. -/
lemma getErasures (hE : Shared cfg e) (hl : cfg.applyLruEviction = true) (ho : o ≠ "none")
    (l : List (ℤ × (Option ℕ × Mem × ℤ))) :
    ∀ x ∈ Runs.trace (getTurn cfg o) (Engine.getErasures cfg o) e l, ¬ Stale x.1 x.2 := by
  refine Runs.forall_trace (P := Shared cfg) (fun e a e' hE h => ?_) (fun e a hE x hx => ?_) hE l
  · obtain rfl := Option.some.inj h
    obtain ⟨hS, hO⟩ := Split.getLoop hl ho [a] (∅, ∅) hE.split hE.owned
    exact ⟨hS, hO⟩
  · rw [Engine.getErasures] at hx
    split_ifs at hx
    · obtain ⟨p, -, rfl⟩ := List.mem_map.mp hx
      exact hE.not_stale p
    · cases hx

end Shared

end Engine

namespace Cache

variable {c c' : Cache} {d d' : Disk} {cid : String}

lemma engine_created (c : Cache) (cid : String) : (c.created cid).engine = c.engine := by
  rw [created]
  split_ifs
  · rfl
  · rfl

lemma shared_putDataBlocks (h : OneBlock cfg) (hl : cfg.applyLruEviction = true)
    (hcid : cid ≠ "none") (hE : Shared cfg c.engine) {blocks : Map ℤ BlockPut}
    {op : AllocateOperationType} {r : Map ℤ Bool}
    (hput : c.putDataBlocks cfg d cid blocks op = some (c', d', r)) : Shared cfg c'.engine := by
  have hcreated : (if (!c.hasContentCached cid) = true then c.createItem cid else c)
      = c.created cid := rfl
  rw [Cache.putDataBlocks] at hput
  simp only [hcreated, engine_created] at hput
  obtain ⟨it, -, hput⟩ := Option.bind_eq_some_iff.mp hput
  obtain ⟨⟨e1, d1, allocations⟩, h1, hput⟩ := Option.bind_eq_some_iff.mp hput
  obtain ⟨⟨it', e2, res, any⟩, h2, hput⟩ := Option.bind_eq_some_iff.mp hput
  cases hput
  -- the second loop only moves readable ends
  have hloop : ∀ (l : List (ℤ × Option ℕ)) (it : Item) (e : Engine) (res : Map ℤ Bool) (any : Bool)
      (r : Item × Engine × Map ℤ Bool × Bool), Shared cfg e →
      putLoop cfg cid blocks l it e res any = some r → Shared cfg r.2.1 := by
    intro l
    induction l with
    | nil =>
        intro it e res any r hE hr
        cases hr
        exact hE
    | cons x l ih =>
        intro it e res any r hE hr
        obtain ⟨bid, page⟩ := x
        obtain ⟨b, -, hr⟩ := Option.bind_eq_some_iff.mp hr
        cases page with
        | none => exact ih _ _ _ _ r hE hr
        | some p =>
            obtain ⟨e3, h3, hr⟩ := Option.bind_eq_some_iff.mp hr
            exact ih _ _ _ _ r (hE.makeBlockReadableToOffset h3) hr
  exact hloop _ _ _ _ _ _ (hE.allocateLoop h hl hcid _ h1) h2

lemma shared_getDataBlocks (hl : cfg.applyLruEviction = true) (hcid : cid ≠ "none")
    (hE : Shared cfg c.engine) {blocks : Map ℤ Mem} {r : Map ℤ (Bool × (ℤ × ℤ)) × Map ℤ Mem}
    (hget : c.getDataBlocks cfg cid blocks = some (c', r)) : Shared cfg c'.engine := by
  rw [Cache.getDataBlocks] at hget
  split at hget
  · cases hget
    exact hE
  · obtain ⟨⟨it', res⟩, -, hget⟩ := Option.bind_eq_some_iff.mp hget
    cases hget
    obtain ⟨hS, hO⟩ := Split.getLoop hl hcid (getMapping cfg _ blocks.sorted ∅).sorted (∅, ∅)
      hE.split hE.owned
    exact ⟨hS, hO⟩

lemma shared_truncateItem (hl : cfg.applyLruEviction = true) (hcid : cid ≠ "none")
    (hE : Shared cfg c.engine) {n : ℕ} {r : Bool} (ht : c.truncateItem cfg cid n = some (c', r)) :
    Shared cfg c'.engine := by
  rw [Cache.truncateItem] at ht
  split at ht
  · cases ht
    exact hE
  · split_ifs at ht
    · cases ht
      exact hE.removeCachedBlocks hl cid
    · cases ht
      exact hE
    · obtain ⟨e', h1, ht⟩ := Option.bind_eq_some_iff.mp ht
      cases ht
      have hloop : ∀ (from' index : ℤ) (l : List (ℤ × Option ℕ)) (e e' : Engine), Shared cfg e →
          l.foldlM (Engine.truncateBlock cfg cid from' index) e = some e' → Shared cfg e' := by
        intro from' index l
        induction l with
        | nil =>
            intro e e' hE h
            cases h
            exact hE
        | cons x l ih =>
            intro e e' hE h
            rw [List.foldlM_cons] at h
            obtain ⟨e1, h1, h⟩ := Option.bind_eq_some_iff.mp h
            exact ih e1 e' (hE.truncateBlock hl hcid h1) h
      exact hloop _ _ _ _ _ hE h1

lemma shared_syncOwner (hE : Shared cfg c.engine) {only : Bool} {path : Path} {io : SyncIo} {r : ℤ}
    (hs : c.syncOwner cfg d cid only path io = some (c', d', r)) : Shared cfg c'.engine := by
  rw [Cache.syncOwner] at hs
  split at hs
  · cases hs
    exact hE
  · obtain ⟨⟨e', d1⟩, h1, hs⟩ := Option.bind_eq_some_iff.mp hs
    cases hs
    have hC := cleaned_of_syncPages h1
    have hsame : SameSplit c.engine e' := by
      refine ⟨hC.freePages, fun p => ?_, fun p _ => ?_, hC.lru, hC.ownerPagesMapping,
        hC.ownerFreePagesMapping⟩
      · rcases hC.searchIndex p with hp | hp
        · rw [hp]
        · rw [hp, Page.setPageAsDirty]
      · rcases hC.searchIndex p with hp | hp
        · rw [hp]
        · rw [hp, Page.setPageAsDirty]
    exact hsame.shared hE

lemma shared_removeCachedItem (hl : cfg.applyLruEviction = true) (hE : Shared cfg c.engine)
    (owner : String) (path : Path) (isFromCache : Bool) :
    Shared cfg (c.removeCachedItem cfg owner path isFromCache).1.engine := by
  rw [Cache.removeCachedItem]
  split
  · exact hE
  · dsimp only
    split_ifs
    · exact hE
    · exact hE.removeCachedBlocks hl owner

lemma shared_clearItems (hl : cfg.applyLruEviction = true) (l : List (Path × String))
    (hE : Shared cfg c.engine) :
    Shared cfg (l.foldl (fun c it => (Cache.removeCachedItem cfg c it.2 it.1 true).1)
      c).engine := by
  induction l generalizing c with
  | nil => exact hE
  | cons x l ih => exact ih (shared_removeCachedItem hl hE x.2 x.1 true)

lemma shared_clearAllCache (hl : cfg.applyLruEviction = true) (hE : Shared cfg c.engine) :
    Shared cfg (c.clearAllCache cfg).engine := by
  have hbuckets : ∀ (l : List String) (c : Cache), Shared cfg c.engine →
      Shared cfg (l.foldl (fun c cid => Cache.deleteItem cfg c cid) c).engine := by
    intro l
    induction l with
    | nil => exact fun _ hE => hE
    | cons x l ih => exact fun c hE => ih _ (hE.removeCachedBlocks hl x)
  exact hbuckets _ _ (shared_clearItems hl _ hE)

lemma shared_renameItem (hl : cfg.applyLruEviction = true) (hE : Shared cfg c.engine)
    (oldCid newCid : Path) : Shared cfg (c.renameItem cfg oldCid newCid).engine := by
  rw [Cache.renameItem]
  split
  · exact hE
  · dsimp only
    split
    · exact hE
    · split_ifs
      · exact hE
      · exact hE.removeCachedBlocks hl _

lemma engine_insertInodeMapping (c : Cache) (path : Path) (inode : String) (increase : Bool) :
    (c.insertInodeMapping path inode increase).engine = c.engine := by
  rw [Cache.insertInodeMapping]
  split_ifs
  · split
    · rfl
    · rw [Cache.updateContentMetadata]
      split
      · rfl
      · rfl
  · rfl

/-- Every page that `remove_cached_item` releases has a good iterator, or none. -/
lemma removeCachedItem_erasures (hl : cfg.applyLruEviction = true) (hE : Shared cfg c.engine)
    (owner : String) (isFromCache : Bool) :
    ∀ x ∈ c.removeCachedItemErasures cfg owner isFromCache, ¬ Stale x.1 x.2 := by
  rw [removeCachedItemErasures]
  split
  · exact fun _ hx => (by cases hx)
  · split_ifs
    · exact fun _ hx => (by cases hx)
    · exact hE.removeErasures hl owner

end Cache

open Cache

/-- **One call** keeps the lists apart. -/
theorem CacheCall.step_shared (h : OneBlock cfg) (hl : cfg.applyLruEviction = true)
    {s s' : Cache × Disk} (hE : Shared cfg s.1.engine) (call : CacheCall) (hok : call.Named)
    (hstep : call.step cfg s = some s') :
    Shared cfg s'.1.engine := by
  cases call with
  | putDataBlocks cid blocks op =>
      obtain ⟨⟨c', d', r⟩, hc, rfl⟩ := Option.map_eq_some_iff.mp hstep
      exact shared_putDataBlocks h hl hok hE hc
  | getDataBlocks cid blocks =>
      obtain ⟨⟨c', r⟩, hc, rfl⟩ := Option.map_eq_some_iff.mp hstep
      exact shared_getDataBlocks hl hok hE hc
  | truncateItem owner newSize =>
      obtain ⟨⟨c', r⟩, hc, rfl⟩ := Option.map_eq_some_iff.mp hstep
      exact shared_truncateItem hl hok hE hc
  | syncOwner owner only path io =>
      obtain ⟨⟨c', d', r⟩, hc, rfl⟩ := Option.map_eq_some_iff.mp hstep
      exact shared_syncOwner hE hc
  | removeCachedItem owner path isFromCache =>
      obtain rfl := Option.some.inj hstep
      exact shared_removeCachedItem hl hE owner path isFromCache
  | clearAllCache =>
      obtain rfl := Option.some.inj hstep
      exact shared_clearAllCache hl hE
  | insertInodeMapping path inode increase =>
      obtain rfl := Option.some.inj hstep
      exact (engine_insertInodeMapping s.1 path inode increase).symm ▸ hE
  | renameItem oldCid newCid =>
      obtain rfl := Option.some.inj hstep
      exact shared_renameItem hl hE oldCid newCid

/-- What a call takes out of the list is not stale. -/
theorem CacheCall.not_stale_of_erasures (h : OneBlock cfg) (hl : cfg.applyLruEviction = true)
    {s : Cache × Disk} (hE : Shared cfg s.1.engine) (call : CacheCall) (hok : call.Named) :
    ∀ x ∈ call.erasures cfg s, ¬ Stale x.1 x.2 := by
  have hnil : ∀ x ∈ ([] : List (Engine × ℕ)), ¬ Stale x.1 x.2 := fun _ hx => (by cases hx)
  -- the calls of the engine have their own lemmas; a loop erases turn by turn
  cases call with
  | putDataBlocks cid blocks op =>
      rw [erasures]
      cases (s.1.created cid).contents.lookup cid with
      | none => exact hnil
      | some it => exact hE.allocateErasures h hl hok _
  | getDataBlocks cid blocks =>
      rw [erasures]
      cases s.1.contents.lookup cid with
      | none => exact hnil
      | some it => exact hE.getErasures hl hok _
  | truncateItem owner newSize =>
      rw [erasures]
      cases s.1.contents.lookup owner with
      | none => exact hnil
      | some it =>
          rw [Option.elim_some]
          split_ifs
          · exact hE.removeErasures hl owner
          · exact hnil
          · exact hE.truncateErasures hl hok _ _ _
  | syncOwner owner only path io => exact hnil
  | removeCachedItem owner path isFromCache =>
    exact removeCachedItem_erasures hl hE owner isFromCache
  | clearAllCache =>
      rw [erasures, clearAllCacheErasures]
      intro x hx
      -- first the mapped files, and then the items that are left
      rcases List.mem_append.mp hx with hx | hx
      · refine Runs.forall_trace (P := fun c => Shared cfg c.engine) (fun c a c' hE ha => ?_)
          (fun c a hE => removeCachedItem_erasures hl hE a.2 true) hE _ x hx
        obtain rfl := Option.some.inj ha
        exact shared_removeCachedItem hl hE a.2 a.1 true
      · refine Runs.forall_trace (P := fun c : Cache => Shared cfg c.engine)
          (fun c a c' hE ha => ?_)
          (fun c a hE => hE.removeErasures hl a) (shared_clearItems hl _ hE) _ x hx
        obtain rfl := Option.some.inj ha
        exact hE.removeCachedBlocks hl a
  | insertInodeMapping path inode increase => exact hnil
  | renameItem oldCid newCid =>
      rw [erasures, renameItemErasures]
      split
      · exact hnil
      · dsimp only
        split
        · exact hnil
        · split_ifs
          · exact hnil
          · exact hE.removeErasures hl _

/-! ### The structure -/

/-- The list, the iterators and the free list fit together, and there is a page to evict. -/
structure Engine.LruStructure (cfg : Config) (e : Engine) : Prop where
  nodup : (e.lruMainVector.map Prod.snd).Nodup
  keys : ∀ p, p ∈ e.lruMainVector.map Prod.snd ↔ p ∈ e.pageOrderMapping
  notFree : ∀ p, p ∈ e.lruMainVector.map Prod.snd ↔ p < cfg.cacheNrPages ∧ p ∉ e.freePages
  freeNodup : e.freePages.Nodup
  iterator : ∀ p n, e.pageOrderMapping.lookup p = some n →
    (n, p) ∈ e.lruMainVector ∧ ∀ q, (n, q) ∈ e.lruMainVector → q = p
  victim : 0 < cfg.cacheNrPages → e.freePages = [] → e.lruMainVector.getLast?.isSome

lemma Engine.Split.lruStructure {e : Engine} (hS : Split cfg e) : LruStructure cfg e where
  nodup := hS.nodup_pages
  keys := fun p => by
    rw [← AList.lookup_isSome, Option.isSome_iff_exists]
    constructor
    · intro hp
      obtain ⟨x, hx, rfl⟩ := List.mem_map.mp hp
      exact ⟨x.1, (hS.lruOk.iter x.2 x.1).mpr hx⟩
    · rintro ⟨n, hn⟩
      exact List.mem_map_of_mem ((hS.lruOk.iter p n).mp hn)
  notFree := hS.mem_pages
  freeNodup := hS.nodup
  iterator := fun p n hn => by
    have hp := (hS.lruOk.iter p n).mp hn
    exact ⟨hp, fun q hq => (hS.lruOk.node_eq hp hq).mp rfl⟩
  victim := fun hpos hnil => by
    have hlen := hS.length_add
    rw [hnil, List.length_nil, zero_add] at hlen
    have hne : e.lruMainVector ≠ [] := List.length_pos_iff.mp (hlen.symm ▸ hpos)
    rw [List.getLast?_eq_some_getLast hne]
    rfl

/-- **The LRU list keeps its structure**: in every state that calls of the cache reach, the list,
the iterators and the free list fit together, and no call takes out a stale iterator. -/
theorem lruStructure_of_reach (h : OneBlock cfg) (hl : cfg.applyLruEviction = true)
    {s : Cache × Disk} (hs : Runs.Reach (CacheCall.step cfg) (fun _ call => call.Named)
      (CacheCall.Start cfg) s) :
    LruStructure cfg s.1.engine ∧
      ∀ call : CacheCall, call.Named → ∀ x ∈ call.erasures cfg s, ¬ Stale x.1 x.2 := by
  have hE : Shared cfg s.1.engine := by
    refine hs.invariant (P := fun s => Shared cfg s.1.engine) (fun s hs => ?_)
      fun s call s' hE hok hstep => call.step_shared h hl hE hok hstep
    rw [show s.1 = .new cfg from hs]
    exact .new cfg
  exact ⟨hE.split.lruStructure, fun call hok => call.not_stale_of_erasures h hl hE hok⟩

/-- A block of one item. -/
def CacheCall.putBlock (blk : ℤ) : CacheCall :=
  .putDataBlocks "1" (Map.single blk ⟨fun _ => 7, 4, 0, 3⟩) .opWrite

/-- Block `2` is evicted, and the truncation meets its old page, which holds block `0` by then. -/
def CacheCall.staleRun : List CacheCall :=
  [.putBlock 2, .putBlock 1, .putBlock 0, .truncateItem "1" 4]

/-- Two pages after the run: one is free again, the other one stays in the list. -/
theorem lruStructure_of_reach_stale : ∃ s,
    Runs.run (CacheCall.step (.tiny 2 true))
    (.new (.tiny 2 true), .empty) CacheCall.staleRun = some s ∧
      s.1.engine.freePages = [0] ∧ s.1.engine.lruMainVector.map Prod.snd = [1] ∧
      LruStructure (.tiny 2 true) s.1.engine ∧
      ∀ x ∈ CacheCall.erasures (.tiny 2 true) s (.putBlock 3), ¬ Stale x.1 x.2 := by
  obtain ⟨s, hs⟩ := Option.isSome_iff_exists.mp
    (show (Runs.run (CacheCall.step (.tiny 2 true)) (.new (.tiny 2 true), .empty)
      CacheCall.staleRun).isSome by decide +kernel)
  have hlists : (Runs.run (CacheCall.step (.tiny 2 true)) (.new (.tiny 2 true), .empty)
      CacheCall.staleRun).map (fun s =>
        (s.1.engine.freePages, s.1.engine.lruMainVector.map Prod.snd))
      = some ([0], [1]) := by decide +kernel
  rw [hs, Option.map_some, Option.some.injEq, Prod.mk.injEq] at hlists
  have hnamed : ∀ call ∈ CacheCall.staleRun, call.Named := by
    intro call hcall
    simp only [CacheCall.staleRun, List.mem_cons, List.not_mem_nil, or_false] at hcall
    rcases hcall with rfl | rfl | rfl | rfl <;> exact (by decide : "1" ≠ "none")
  have hstart : CacheCall.Start (.tiny 2 true) (.new (.tiny 2 true), .empty) := rfl
  have hreach : Runs.Reach (CacheCall.step (.tiny 2 true)) (fun _ call => call.Named)
      (CacheCall.Start (.tiny 2 true)) s :=
    Runs.Reach.of_run (.init hstart) (Runs.guarded_of_forall hnamed) hs
  obtain ⟨hstruct, hsafe⟩ := lruStructure_of_reach (Config.onePage_tiny 2 true).oneBlock rfl hreach
  exact ⟨s, hs, hlists.1, hlists.2, hstruct, hsafe (.putBlock 3) (by decide : "1" ≠ "none")⟩

end LazyFS
