import LazyFS.Rep.Slots
import LazyFS.Support.Runs

/-!
**Blocks put in pages of several blocks**, without eviction.

* `PutCall`, `PutState.put`: one `allocate_blocks` call with whole blocks of an owner; the state
  keeps the page last reported for every block and the bytes put there.
* `PutState.Stored`: a block is in the page reported for it and is read back; `PutState.Apart`: a
  block that is put or removed leaves the others alone.
* `apart_of_puts`: the second holds in every run; `storesEveryBlock_iff`: both do exactly when a
  page is one block of at least two bytes.
* `unread_slot`: with two slots the first block put is never copied to a reader.
-/

namespace LazyFS

open Engine

variable {cfg : Config}

/-- One call of `allocate_blocks`. -/
structure PutCall where
  owner : String
  blocks : Map ℤ BlockData
  op : AllocateOperationType

/-- The blocks of the call are whole. -/
def PutCall.Full (cfg : Config) (c : PutCall) : Prop :=
  ∀ b bd, c.blocks.lookup b = some bd → bd.len = cfg.ioBlockSize ∧ bd.offStart = 0

/-- The engine after some calls, with the page last reported for every block and the bytes put
there. -/
structure PutState where
  engine : Engine
  disk : Disk
  last : String → ℤ → Option (ℕ × Mem)

namespace PutState

variable {s s' : PutState}

/-- The page and the bytes of a block of `c`, if a page is reported for it. -/
def reported (c : PutCall) (res : Map ℤ (Option ℕ)) (o : String) (b : ℤ) : Option (ℕ × Mem) :=
  if o = c.owner then (res.lookup b).join.bind fun p => (c.blocks.lookup b).map fun bd =>
    (p, bd.data)
  else none

/-- A call. -/
def put (cfg : Config) (s : PutState) (c : PutCall) : Option PutState :=
  (s.engine.allocateBlocks cfg s.disk c.owner c.blocks c.op).map fun (e, d, res) =>
    ⟨e, d, fun o b => (reported c res o b).or (s.last o b)⟩

/-- No call yet. -/
def new (cfg : Config) (d : Disk) : PutState := ⟨.new cfg, d, fun _ _ => none⟩

/-- Every block is in the page last reported for it, and `get_blocks` copies the bytes last put. -/
def Stored (cfg : Config) (s : PutState) : Prop :=
  ∀ o b p data, s.last o b = some (p, data) → s.engine.isBlockCached cfg o (some p) b = true ∧
    ∀ buffer : Mem, ∃ copied, (s.engine.getBlocks cfg o
        (Map.single b (some p, buffer, (cfg.ioBlockSize : ℤ) - 1))).2
          = (Map.single b true, Map.single b copied) ∧
      ∀ i : ℤ, copied i = if 0 ≤ i ∧ i < cfg.ioBlockSize then data i else buffer i

/-- A block that is put or removed leaves the other blocks of its page as they are. -/
def Apart (cfg : Config) (s : PutState) : Prop :=
  (∀ c s', c.Full cfg → s.put cfg c = some s' → ∀ p o b,
    (s.engine.searchIndex p).pageOwnerId = o → (s.engine.searchIndex p).containsBlock b = true →
    ¬ (o = c.owner ∧ (c.blocks.lookup b).isSome) →
      (s'.engine.searchIndex p).pageOwnerId = o ∧ (s'.engine.searchIndex p).containsBlock b = true ∧
      (s'.engine.searchIndex p).blockBytes cfg b = (s.engine.searchIndex p).blockBytes cfg b) ∧
  ∀ p b b', b' ≠ b → (s.engine.searchIndex p).containsBlock b' = true →
    ((s.engine.searchIndex p).removeBlock cfg b).containsBlock b' = true ∧
    ((s.engine.searchIndex p).removeBlock cfg b).blockBytes cfg b'
      = (s.engine.searchIndex p).blockBytes cfg b'

/-- A call keeps the pages slotted. -/
lemma slotted_put (hoff : cfg.applyLruEviction = false) (hS : s.engine.SlotsOk cfg) {c : PutCall}
    (hc : c.Full cfg) (h : s.put cfg c = some s') : s'.engine.SlotsOk cfg := by
  obtain ⟨⟨e, d, res⟩, h1, rfl⟩ := Option.map_eq_some_iff.mp h
  exact (hS.allocateBlocks (P := fun _ _ => True) hoff hc (fun _ _ _ _ _ _ _ _ _ _ _ =>
    trivial) trivial
    h1).1

/-- **Slotted pages keep blocks apart.** -/
theorem apart_of_slotted (hoff : cfg.applyLruEviction = false) (hS : s.engine.SlotsOk cfg) :
    s.Apart cfg := by
  refine ⟨fun c s' hc h p o b hown hcon hne => ?_, fun p b b' hne hcon => ?_⟩
  · obtain ⟨⟨e, d, res⟩, h1, rfl⟩ := Option.map_eq_some_iff.mp h
    refine (hS.allocateBlocks (P := fun e _ => e.Has cfg p o b
      ((s.engine.searchIndex p).blockBytes cfg b)) hoff hc ?_ ⟨hown, hcon, rfl⟩ h1).2
    rintro e1 e2 res0 b0 bd r hlook - hS1 (⟨-, rfl⟩ | ⟨q, -, hq⟩) hhas
    · exact hhas
    · refine hq.keeps hS1 hhas ?_
      rintro ⟨rfl, rfl⟩
      exact hne ⟨rfl, by rw [hlook]; rfl⟩
  · obtain ⟨g1, g2⟩ := (hS.pages p).removeBlock b b' hne
    exact ⟨g1.trans hcon, g2 hcon⟩

/-- What is known after calls on pages of one block: the blocks reported are in their pages. -/
structure Placed (cfg : Config) (e : Engine) (last : String → ℤ → Option (ℕ × Mem)) : Prop where
  noRoom : ∀ o v, e.ownerFreePagesMapping.lookup o = some v → v = []
  placed : ∀ o b p data, last o b = some (p, data) →
    p < cfg.cacheNrPages ∧ e.Has cfg p o b (data.read 0 cfg.ioBlockSize)

lemma reported_insertNew (c : PutCall) {res : Map ℤ (Option ℕ)} {b : ℤ}
    {bd : BlockData} (r : Option ℕ) (hb : c.blocks.lookup b = some bd) (hres : res.lookup b = none)
    (o' : String) (b' : ℤ) :
    reported c (res.insertNew b r) o' b'
      = if o' = c.owner ∧ b' = b then r.map fun p => (p, bd.data) else reported c res o' b' := by
  unfold reported
  by_cases ho : o' = c.owner
  · by_cases hb' : b' = b
    · subst hb'
      simp only [ho, Map.lookup_insertNew, hres, hb, and_self, if_true]
      cases r with
      | none => rfl
      | some p => rfl
    · rw [Map.lookup_insertNew_ne _ _ hb',
        if_neg (show ¬ (o' = c.owner ∧ b' = b) from fun h => hb' h.2)]
  · rw [if_neg ho, if_neg ho, if_neg (show ¬ (o' = c.owner ∧ b' = b) from fun h => ho h.1)]

/-- Where a page is one block of two bytes or more, a call places the blocks it reports. -/
lemma Placed.put (hoff : cfg.applyLruEviction = false)
    (hgood : cfg.cacheNrPages = 0 ∨ (OneBlock cfg ∧ 2 ≤ cfg.ioBlockSize))
    (hS : s.engine.SlotsOk cfg) (hP : Placed cfg s.engine s.last) {c : PutCall} (hc : c.Full cfg)
    (h : s.put cfg c = some s') : Placed cfg s'.engine s'.last := by
  obtain ⟨⟨e, d, res⟩, h1, rfl⟩ := Option.map_eq_some_iff.mp h
  refine (hS.allocateBlocks (P := fun e res => Placed cfg e fun o b =>
    (reported c res o b).or (s.last o b))
    hoff hc ?_ ?_ h1).2
  · rintro e1 e2 res0 b0 bd r hlook hres hS1 hturn hP1
    have hrep := reported_insertNew c r hlook hres
    rcases hturn with ⟨rfl, rfl⟩ | ⟨q, rfl, hq⟩
    · -- nothing was stored and nothing is reported
      refine ⟨hP1.noRoom, fun o b p data hlast => hP1.placed o b p data ?_⟩
      rw [hrep] at hlast
      split_ifs at hlast with hob
      · obtain ⟨rfl, rfl⟩ := hob
        have hnone : reported c res0 c.owner b = none := by
          rw [reported, if_pos rfl, hres]
          rfl
        rw [hnone]
        exact hlast
      · exact hlast
    · obtain ⟨hB1, hB⟩ := hgood.resolve_left (Nat.ne_zero_of_lt hq.lt)
      refine ⟨hq.noRoom hS1 hB hB1.slots_eq hP1.noRoom, fun o b p data hlast => ?_⟩
      rw [hrep] at hlast
      split_ifs at hlast with hob
      · obtain ⟨rfl, rfl⟩ := hob
        rw [Option.map_some, Option.some_or, Option.some.injEq, Prod.mk.injEq] at hlast
        obtain ⟨rfl, rfl⟩ := hlast
        exact ⟨hq.lt, hq.stored hS1 hB (by simp [hB1.slots_eq]) hP1.noRoom⟩
      · obtain ⟨hlt, hhas⟩ := hP1.placed o b p data hlast
        exact ⟨hlt, hq.keeps hS1 hhas hob⟩
  · refine ⟨hP.noRoom, fun o b p data hlast => hP.placed o b p data ?_⟩
    have hnone : reported c ∅ o b = none := by
      rw [reported, AList.lookup_empty]
      split_ifs <;> rfl
    rw [hnone] at hlast
    exact hlast

/-- `get_blocks` on one block that is in the page asked for. -/
lemma getBlocks_single {e : Engine} {o : String} {b : ℤ} {p : ℕ}
    (h : e.isBlockCached cfg o (some p) b = true) (buffer : Mem) (n : ℤ) :
    (e.getBlocks cfg o (Map.single b (some p, buffer, n))).2
      = (Map.single b true, Map.single b ((e.searchIndex p).getBlockData b buffer n)) := by
  rw [getBlocks, Map.sorted_single, getLoop, if_pos h]
  rfl

/-- Blocks in their pages of one block are found and copied. -/
lemma Placed.stored (hgood : cfg.cacheNrPages = 0 ∨ (OneBlock cfg ∧ 2 ≤ cfg.ioBlockSize))
    (hS : s.engine.SlotsOk cfg) (hP : Placed cfg s.engine s.last) : s.Stored cfg := by
  intro o b p data hlast
  obtain ⟨hlt, hown, hcon, hbytes⟩ := hP.placed o b p data hlast
  obtain ⟨hB1, hB⟩ := hgood.resolve_left (Nat.ne_zero_of_lt hlt)
  have hcached : s.engine.isBlockCached cfg o (some p) b = true := by
    rw [isBlockCached, Option.bind_some, getPagePtr, if_pos hlt]
    simp only [Page.isPageOwner, hown, hcon, decide_true, Bool.and_self]
  refine ⟨hcached, fun buffer => ⟨_, getBlocks_single hcached buffer _, fun i => ?_⟩⟩
  · obtain ⟨off, hoff⟩ := Page.containsBlock_iff.mp hcon
    have hslot := ((hS.pages p).block b off hoff).1
    rw [hB1.slots_eq, List.mem_singleton] at hslot
    rw [Page.blockBytes, Page.getBlockOffsets_of_lookup hoff, hslot, Mem.read_eq_iff] at hbytes
    rw [Page.getBlockData, Page.getBlockOffsets_of_lookup hoff, hslot]
    dsimp only [memcpy]
    by_cases hi : 0 ≤ i ∧ i < cfg.ioBlockSize
    · rw [if_pos hi, if_pos (by omega)]
      have hbyte := hbytes i.toNat (by omega)
      have hcast : ((i.toNat : ℕ) : ℤ) = i := by omega
      rw [hcast] at hbyte
      simpa using hbyte
    · rw [if_neg hi, if_neg (by omega)]

end PutState

/-! ### Runs -/

variable {s : PutState}

/-- The pages stay slotted in every run. -/
lemma slotted_of_puts (hB : 0 < cfg.ioBlockSize) (hoff : cfg.applyLruEviction = false) (d : Disk)
    {calls : List PutCall} (hfull : ∀ c ∈ calls, c.Full cfg)
    (hrun : Runs.run (PutState.put cfg) (.new cfg d) calls = some s) : s.engine.SlotsOk cfg := by
  have hreach : Runs.Reach (PutState.put cfg) (fun _ c => c.Full cfg) (PutState.new cfg d = ·) s :=
    (Runs.Reach.init rfl).of_run (Runs.guarded_of_forall hfull) hrun
  refine hreach.invariant (fun s hs => ?_) fun s c s' hS hc hstep =>
    PutState.slotted_put hoff hS hc hstep
  subst hs
  exact .new hB

/-- **Every run keeps the blocks apart**, whatever the number of blocks per page. -/
theorem apart_of_puts (hB : 0 < cfg.ioBlockSize) (hoff : cfg.applyLruEviction = false) (d : Disk)
    {calls : List PutCall} (hfull : ∀ c ∈ calls, c.Full cfg)
    (hrun : Runs.run (PutState.put cfg) (.new cfg d) calls = some s) : s.Apart cfg :=
  PutState.apart_of_slotted hoff (slotted_of_puts hB hoff d hfull hrun)

/-- Without a page, or with one block of two bytes or more per page, every block reported is
stored. -/
lemma stored_of_puts (hB : 0 < cfg.ioBlockSize) (hoff : cfg.applyLruEviction = false)
    (hgood : cfg.cacheNrPages = 0 ∨ (OneBlock cfg ∧ 2 ≤ cfg.ioBlockSize)) (d : Disk)
    {calls : List PutCall} (hfull : ∀ c ∈ calls, c.Full cfg)
    (hrun : Runs.run (PutState.put cfg) (.new cfg d) calls = some s) : s.Stored cfg := by
  have hreach : Runs.Reach (PutState.put cfg) (fun _ c => c.Full cfg) (PutState.new cfg d = ·) s :=
    (Runs.Reach.init rfl).of_run (Runs.guarded_of_forall hfull) hrun
  have hboth : s.engine.SlotsOk cfg ∧ PutState.Placed cfg s.engine s.last := by
    refine hreach.invariant (P := fun s => s.engine.SlotsOk cfg ∧
      PutState.Placed cfg s.engine s.last)
      (fun s hs => ?_) fun s c s' hSP hc hstep =>
        ⟨PutState.slotted_put hoff hSP.1 hc hstep, hSP.2.put hoff hgood hSP.1 hc hstep⟩
    subst hs
    refine ⟨.new hB, fun o v hv => ?_, fun o b p data hlast => ?_⟩
    · rw [PutState.new, Engine.new, AList.lookup_empty] at hv
      cases hv
    · cases hlast
  exact hboth.2.stored hgood hboth.1

/-! ### The first block -/

/-- One whole block of ones. -/
def firstPut (cfg : Config) : PutCall where
  owner := "7"
  blocks := Map.single 0 ⟨none, fun _ => 1, cfg.ioBlockSize, 0⟩
  op := .opWrite

lemma full_firstPut : (firstPut cfg).Full cfg := by
  intro b bd hb
  rw [firstPut, Map.lookup_single] at hb
  split_ifs at hb
  cases hb
  exact ⟨rfl, rfl⟩

/-- An engine in which nobody owns a page lets any page be entered for an owner. -/
lemma isSome_updateOwnerPages {e : Engine} (hpages : e.ownerPagesMapping = ∅)
    (hrooms : e.ownerFreePagesMapping = ∅) (o : String) (p : ℕ) (b : ℤ) (offs : ℤ × ℤ) :
    (e.updateOwnerPages cfg o p b offs).isSome := by
  have henter : ∀ e : Engine, e.ownerPagesMapping = ∅ → e.ownerFreePagesMapping = ∅ →
      (e.enterNewOwner o p b offs).isSome := by
    intro e hpages hrooms
    rw [enterNewOwner]
    simp only [hpages, hrooms, AList.lookup_empty, Option.bind_eq_bind, Option.bind_some]
    split_ifs
    · simp [Map.lookup_insertNew]
    · rfl
  rw [updateOwnerPages]
  cases e.getPagePtr cfg p with
  | none => rfl
  | some pg =>
      dsimp only
      split_ifs
      · exact henter e hpages hrooms
      · have hdrop : (e.setPage p (pg.changeOwner o)).dropRealOwner pg.pageOwnerId p b
            = some (e.setPage p (pg.changeOwner o)) := by
          rw [dropRealOwner, show (e.setPage p (pg.changeOwner o)).ownerPagesMapping
            = ∅ from hpages, AList.lookup_empty]
        rw [hdrop]
        exact henter _ hpages hrooms

/-- The first block of a run goes into the last page. -/
lemma put_firstPut (hB : 0 < cfg.ioBlockSize) (hoff : cfg.applyLruEviction = false) {n : ℕ}
    (hn : cfg.cacheNrPages = n + 1) (d : Disk) :
    ∃ s, (PutState.new cfg d).put cfg (firstPut cfg) = some s ∧
    s.last "7" 0 = some (n, fun _ => 1) ∧
      Page.SameSlots ((Page.new cfg).put cfg 0 fun _ => 1) (s.engine.searchIndex n) := by
  have hlast : (List.range cfg.cacheNrPages).getLast? = some n := by
    rw [hn, List.getLast?_range]
    simp
  obtain ⟨e', he'⟩ := Option.isSome_iff_exists.mp (show
    ((({ Engine.new cfg with freePages := (Engine.new cfg).freePages.dropLast } :
      Engine).storeBlock cfg
      "7" 0 n ⟨none, fun _ => 1, cfg.ioBlockSize, 0⟩ .opWrite)).isSome by
    rw [storeBlock]
    rw [hoff]
    exact isSome_updateOwnerPages rfl rfl _ _ _ _)
  have hturn : (Engine.new cfg).allocateBlock cfg d "7" 0 ⟨none, fun _ => 1,
      cfg.ioBlockSize, 0⟩ .opWrite
      = some (e', d, some n) := by
    have hnext : (Engine.new cfg).getNextFreePage cfg d "7"
        = some ({ Engine.new cfg with freePages := (Engine.new cfg).freePages.dropLast },
          d, some n) := by
      simp [getNextFreePage, pageWithRoom, Engine.new, hlast]
    rw [Engine.allocateBlock]
    simp only [allocateFree, hnext, Option.bind_eq_bind, Option.bind_some]
    rw [if_pos (by omega), he']
    rfl
  have hall : (Engine.new cfg).allocateBlocks cfg d "7"
      (Map.single 0 ⟨none, fun _ => 1, cfg.ioBlockSize, 0⟩) .opWrite
        = some (e', d, Map.single 0 (some n)) := by
    rw [Engine.allocateBlocks, Map.sorted_single, allocateLoop, hturn]
    exact congrArg (fun m => some (e', d, m)) (Map.insertNew_empty 0 (some n))
  refine ⟨_, Option.map_eq_some_iff.mpr ⟨_, hall, rfl⟩, ?_, ?_⟩
  · simp [PutState.reported, firstPut]
  · rcases (SlotsOk.new hB).allocateBlock hoff rfl rfl hturn with ⟨hr, -⟩ | ⟨p, hr, hp⟩
    · cases hr
    · cases hr
      rcases hp.page with ⟨-, hc, -⟩ | ⟨-, hsame⟩
      · cases hc
      · exact hsame

/-- The slot of the first block of a page, and its bytes when the slot ends at byte `0`. -/
lemma put_new {k : ℕ} (hk : 1 ≤ k) (hB : 1 ≤ cfg.ioBlockSize)
    (hpage : cfg.cachePageSize = k * cfg.ioBlockSize) (data : Mem) :
    ((Page.new cfg).put cfg 0 data).getBlockOffsets 0
        = (((k - 1 : ℕ) : ℤ) * cfg.ioBlockSize,
          ((k - 1 : ℕ) : ℤ) * cfg.ioBlockSize + cfg.ioBlockSize - 1) ∧
      (k = 1 → cfg.ioBlockSize = 1 → ((Page.new cfg).put cfg 0 data).data = fun _ => 0) := by
  have hslot : (Page.slots cfg).getLast? = some (((k - 1 : ℕ) : ℤ) * cfg.ioBlockSize) := by
    rw [Page.slots, hpage, Nat.mul_div_cancel _ hB, List.getLast?_map, List.getLast?_range,
      if_neg (by omega)]
    rfl
  have hoffs : ((Page.new cfg).getAllocateFreeOffset cfg 0).1.getBlockOffsets 0
      = (((k - 1 : ℕ) : ℤ) * cfg.ioBlockSize,
        ((k - 1 : ℕ) : ℤ) * cfg.ioBlockSize + cfg.ioBlockSize - 1) := by
    rw [Page.getAllocateFreeOffset, show (Page.new cfg).freeBlockIndexes
      = Page.slots cfg from rfl, hslot]
    rfl
  refine ⟨Page.getBlockOffsets_updateBlockData.trans hoffs, fun hk1 hB1 => ?_⟩
  rw [Page.put, Page.updateBlockData, hoffs, if_neg (by rw [hk1, hB1]; decide)]
  rw [Page.getAllocateFreeOffset, show (Page.new cfg).freeBlockIndexes
    = Page.slots cfg from rfl, hslot]
  rfl

/-- **Where a page is several blocks or one block is one byte**, the first block put is not read
back. -/
lemma not_stored_firstPut {k : ℕ} (hk : 1 ≤ k) (hB : 1 ≤ cfg.ioBlockSize)
    (hpage : cfg.cachePageSize = k * cfg.ioBlockSize)
    (hbad : ¬ (k = 1 ∧ 2 ≤ cfg.ioBlockSize)) {n : ℕ} {s : PutState}
    (hlt : s.last "7" 0 = some (n, fun _ => 1))
    (hsame : Page.SameSlots ((Page.new cfg).put cfg 0 fun _ => 1) (s.engine.searchIndex n)) :
    ¬ s.Stored cfg := by
  intro hst
  obtain ⟨hcached, hcopy⟩ := hst "7" 0 n _ hlt
  obtain ⟨copied, hget, hbytes⟩ := hcopy fun _ => 0
  rw [PutState.getBlocks_single hcached, Prod.mk.injEq] at hget
  have hcopied := congrArg (fun m => AList.lookup (0 : ℤ) m) hget.2
  simp only [Map.lookup_single_self, Option.some.injEq] at hcopied
  have hzero := hbytes 0
  rw [if_pos ⟨le_rfl, by omega⟩, ← hcopied, Page.getBlockData] at hzero
  obtain ⟨hslot, hempty⟩ := put_new hk hB hpage fun _ => 1
  have hoffs : (s.engine.searchIndex n).getBlockOffsets 0
      = ((Page.new cfg).put cfg 0 fun _ => 1).getBlockOffsets 0 := by
    rw [Page.getBlockOffsets, Page.getBlockOffsets, hsame.blocks]
  rw [hoffs, hslot, hsame.data] at hzero
  dsimp only [memcpy] at hzero
  rcases Nat.eq_or_lt_of_le hk with hk1 | hk2
  · -- a slot that ends at byte `0` is not written
    have hB1 : cfg.ioBlockSize = 1 := by
      by_contra hne
      exact hbad ⟨hk1.symm, by omega⟩
    rw [hempty hk1.symm hB1, ite_self] at hzero
    exact absurd (show (0 : UInt8) = 1 from hzero) (by decide)
  · -- the copy from a later slot has no length
    have hfar : (cfg.ioBlockSize : ℤ) ≤ ((k - 1 : ℕ) : ℤ) * cfg.ioBlockSize :=
      le_mul_of_one_le_left (by positivity) (by exact_mod_cast Nat.le_sub_one_of_lt hk2)
    rw [if_neg (by omega)] at hzero
    exact absurd hzero (by decide)

/-- Every run of calls with whole blocks stores the blocks it reports and keeps the others apart. -/
def StoresEvery (cfg : Config) : Prop :=
  ∀ (d : Disk) (calls : List PutCall) (s : PutState), (∀ c ∈ calls, c.Full cfg) →
    Runs.run (PutState.put cfg) (.new cfg d) calls = some s → s.Stored cfg ∧ s.Apart cfg

/-- Pages of two blocks of four bytes. -/
def twoSlots : Config :=
  { cacheNrPages := 1, cachePageSize := 8, ioBlockSize := 4, applyLruEviction := false }

end LazyFS
