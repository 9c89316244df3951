import LazyFS.Rep.Lru
import LazyFS.Support.Runs

/-!
**The victim of an eviction** and the order in which blocks were used.

* `EngineTurn`: one block of a call of `allocate_blocks` or `get_blocks`, or one
  `remove_cached_blocks`, with the pages used so far, last first; `EngineCall.run_turns`: a call is
  the run of its turns.
* `Engine.Ranked`: the LRU list is the pages in use in the order in which they were last stored or
  read.
* `victim_oldest`: a page that is evicted is the one used least recently, unless its block was
  updated since it was stored or read.
* `updated_page_evicted`: the page that was used last is evicted.
-/

namespace LazyFS

open Engine

variable {cfg : Config}

/-- One turn of a loop of the engine. -/
inductive EngineTurn where
  | allocate (owner : String) (blk : ℤ) (b : BlockData) (op : AllocateOperationType)
  | get (owner : String) (blk : ℤ) (pageId : Option ℕ) (data : Mem) (readToMaxIndex : ℤ)
  | remove (owner : String)

/-- A call of the engine. -/
inductive EngineCall where
  | allocateBlocks (owner : String) (blocks : Map ℤ BlockData) (op : AllocateOperationType)
  | getBlocks (owner : String) (blocks : Map ℤ (Option ℕ × Mem × ℤ))
  | removeCachedBlocks (owner : String)

/-- A use of a page: a block was stored in it or read, or a block in it was updated. -/
structure Use where
  page : ℕ
  update : Bool
  deriving DecidableEq

/-- The engine and the disk after a turn, with the uses of pages so far, the last one first. -/
def EngineTurn.step (cfg : Config) (s : Engine × Disk × List Use) :
    EngineTurn → Option (Engine × Disk × List Use)
  | allocate owner blk b op =>
      (s.1.allocateBlock cfg s.2.1 owner blk b op).map fun r => (r.1, r.2.1,
        (r.2.2.toList.map fun p => ⟨p, s.1.isBlockCached cfg owner b.pageId blk⟩) ++ s.2.2)
  | get owner blk pageId data readToMaxIndex =>
      some ((Engine.getLoop cfg owner [(blk, pageId, data, readToMaxIndex)] s.1 (∅, ∅)).1, s.2.1,
        (if s.1.isBlockCached cfg owner pageId blk then pageId.toList.map fun p =>
          ⟨p, false⟩ else [])
          ++ s.2.2)
  | remove owner => some (s.1.removeCachedBlocks cfg owner, s.2.1, s.2.2)

namespace EngineCall

/-- The engine and the disk after a call. -/
def run (cfg : Config) (s : Engine × Disk) : EngineCall → Option (Engine × Disk)
  | allocateBlocks owner blocks op =>
      (s.1.allocateBlocks cfg s.2 owner blocks op).map fun r => (r.1, r.2.1)
  | getBlocks owner blocks => some ((s.1.getBlocks cfg owner blocks).1, s.2)
  | removeCachedBlocks owner => some (s.1.removeCachedBlocks cfg owner, s.2)

/-- The turns of a call. -/
def turns : EngineCall → List EngineTurn
  | allocateBlocks owner blocks op => blocks.sorted.map fun x => .allocate owner x.1 x.2 op
  | getBlocks owner blocks => blocks.sorted.map fun x => .get owner x.1 x.2.1 x.2.2.1 x.2.2.2
  | removeCachedBlocks owner => [.remove owner]

end EngineCall

namespace Engine

/-- The engine after the turns of `get_blocks` does not depend on what was found before. -/
lemma getLoop_fst (owner : String) (l : List (ℤ × (Option ℕ × Mem × ℤ))) (e : Engine)
    (acc acc' : Map ℤ Bool × Map ℤ Mem) :
    (getLoop cfg owner l e acc).1 = (getLoop cfg owner l e acc').1 := by
  induction l generalizing e acc acc' with
  | nil => rfl
  | cons x l ih =>
      obtain ⟨blk, pageId, data, max⟩ := x
      cases pageId with
      | none => exact ih _ _ _
      | some p =>
          rw [getLoop, getLoop]
          split_ifs
          · exact ih _ _ _
          · exact ih _ _ _
          · exact ih _ _ _

lemma getLoop_cons_fst (owner : String) (x : ℤ × (Option ℕ × Mem × ℤ))
    (l : List (ℤ × (Option ℕ × Mem × ℤ))) (e : Engine) (acc : Map ℤ Bool × Map ℤ Mem) :
    (getLoop cfg owner (x :: l) e acc).1
      = (getLoop cfg owner l (getLoop cfg owner [x] e (∅, ∅)).1 (∅, ∅)).1 := by
  obtain ⟨blk, pageId, data, max⟩ := x
  cases pageId with
  | none =>
      rw [getLoop, getLoop]
      exact getLoop_fst _ _ _ _ _
  | some p =>
      rw [getLoop, getLoop]
      split_ifs
      · exact getLoop_fst _ _ _ _ _
      · exact getLoop_fst _ _ _ _ _
      · exact getLoop_fst _ _ _ _ _

end Engine

/-- **A call is the run of its turns.** -/
theorem EngineCall.run_turns (c : EngineCall) (e : Engine) (d : Disk) (used : List Use) :
    (Runs.run (EngineTurn.step cfg) (e, d, used) c.turns).map (fun s => (s.1, s.2.1))
      = c.run cfg (e, d) := by
  cases c with
  | allocateBlocks owner blocks op =>
      have key : ∀ (l : List (ℤ × BlockData)) (e : Engine) (d : Disk) (used : List Use)
          (res : Map ℤ (Option ℕ)),
          (Runs.run (EngineTurn.step cfg) (e, d, used)
            (l.map fun x => .allocate owner x.1 x.2 op)).map (fun s => (s.1, s.2.1))
          = (Engine.allocateLoop cfg owner op l e d res).map fun r => (r.1, r.2.1) := by
        intro l
        induction l with
        | nil => exact fun _ _ _ _ => rfl
        | cons x l ih =>
            intro e d used res
            rw [List.map_cons, Runs.run_cons, EngineTurn.step, Engine.allocateLoop]
            cases e.allocateBlock cfg d owner x.1 x.2 op with
            | none => rfl
            | some r => exact ih _ _ _ _
      exact key _ _ _ _ _
  | getBlocks owner blocks =>
      have key : ∀ (l : List (ℤ × (Option ℕ × Mem × ℤ))) (e : Engine) (used : List Use),
          (Runs.run (EngineTurn.step cfg) (e, d, used)
            (l.map fun x => .get owner x.1 x.2.1 x.2.2.1 x.2.2.2)).map (fun s => (s.1, s.2.1))
          = some ((Engine.getLoop cfg owner l e (∅, ∅)).1, d) := by
        intro l
        induction l with
        | nil => exact fun _ _ => rfl
        | cons x l ih =>
            intro e used
            rw [List.map_cons, Runs.run_cons, EngineTurn.step, Option.bind_some, ih]
            exact congrArg (fun e => some (e, d)) (getLoop_cons_fst owner x l e _).symm
      exact key _ _ _
  | removeCachedBlocks owner => rfl

/-! ### The order of the list -/

namespace Engine

variable {e e' : Engine} {tbl tbl' : PageTable} {used : List ℕ} {p : ℕ}

/-- The LRU list is the pages in use, those that come first in a list of pages first. -/
structure Ranked (cfg : Config) (e : Engine) (tbl : PageTable) (used : List ℕ) : Prop where
  rep : Rep cfg e tbl none
  lruOk : LruOk cfg e fun p => (tbl p).isSome
  listed : ∀ p, (tbl p).isSome → p ∈ e.lruMainVector.map Prod.snd
  order : (e.lruMainVector.map Prod.snd).Pairwise fun p q => used.idxOf p < used.idxOf q

namespace Ranked

lemma lt (hr : Ranked cfg e tbl used) (q : ℕ) (hq : (tbl q).isSome) : q < cfg.cacheNrPages := by
  obtain ⟨⟨o, b⟩, hob⟩ := Option.isSome_iff_exists.mp hq
  exact hr.rep.lt hob

/-- Pages other than `p` stay in their order when `p` is used. -/
lemma order_cons {l : List ℕ} (h : l.Pairwise fun p q => used.idxOf p < used.idxOf q)
    (hp : ∀ q ∈ l, q ≠ p) : l.Pairwise fun q r => (p :: used).idxOf q < (p :: used).idxOf r := by
  refine h.imp_of_mem fun {q r} hq hr hlt => ?_
  rw [List.idxOf_cons_ne _ (hp q hq).symm, List.idxOf_cons_ne _ (hp r hr).symm]
  exact Nat.succ_lt_succ hlt

lemma order_head {l : List ℕ} (h : l.Pairwise fun p q => used.idxOf p < used.idxOf q)
    (hp : ∀ q ∈ l, q ≠ p) :
    (p :: l).Pairwise fun q r => (p :: used).idxOf q < (p :: used).idxOf r := by
  refine List.pairwise_cons.mpr ⟨fun q hq => ?_, order_cons h hp⟩
  rw [List.idxOf_cons_self, List.idxOf_cons_ne _ (hp q hq).symm]
  exact Nat.succ_pos _

/-- A page that is read or written moves to the front. -/
lemma visit (hr : Ranked cfg e tbl used) (hR : Rep cfg e' tbl' none)
    (hL : LruOk cfg e' fun q => (tbl' q).isSome) (hother : ∀ q, q ≠ p → tbl' q = tbl q)
    (hlru : e'.lru = (e.applyLruOnRead p).lru) : Ranked cfg e' tbl' (p :: used) := by
  have hlist : e'.lruMainVector = (e.nextNode, p) :: (e.lruErase p).lruMainVector := by
    have h1 : e'.lruMainVector = (e.applyLruOnRead p).lruMainVector := congrArg Prod.fst hlru
    rw [h1, Engine.applyLruOnRead, lruPushFront, (LruOk.lruErase_fields e p).2]
  have hne : ∀ q ∈ (e.lruErase p).lruMainVector.map Prod.snd, q ≠ p := by
    intro q hq
    obtain ⟨x, hx, rfl⟩ := List.mem_map.mp hq
    exact ((hr.lruOk.mem_lruErase p x).mp hx).2
  refine ⟨hR, hL, fun q hq => ?_, ?_⟩
  · rw [hlist, List.map_cons, List.mem_cons]
    by_cases hqp : q = p
    · exact .inl hqp
    · rw [hother q hqp] at hq
      obtain ⟨x, hx, rfl⟩ := List.mem_map.mp (hr.listed q hq)
      exact .inr (List.mem_map_of_mem ((hr.lruOk.mem_lruErase p x).mpr ⟨hx, hqp⟩))
  · rw [hlist, List.map_cons]
    exact order_head (hr.order.sublist ((LruOk.sublist_lruErase e p).map _)) hne

/-- The pages of an owner leave the list. -/
lemma remove (h : OneBlock cfg) (hl : cfg.applyLruEviction = true) (hr : Ranked cfg e tbl used)
    (o : String) : Ranked cfg (e.removeCachedBlocks cfg o) (tbl.without o) used := by
  obtain ⟨hsub, hkeep⟩ := hr.lruOk.lru_removeCachedBlocks hl o
  have hlive : ∀ q, (tbl q).isSome → (∀ b, tbl q ≠ some (o, b)) → (tbl.without o q).isSome := by
    intro q hq hno
    rw [← Option.ne_none_iff_isSome, Ne, PageTable.without_eq_none, not_or, not_exists]
    exact ⟨Option.ne_none_iff_isSome.mpr hq, hno⟩
  refine ⟨(hr.rep.removeCachedBlocks h o).rep,
    hr.lruOk.removeCachedBlocks o (fun s hs q hq hqs => ?_)
    (fun hs q hq => ?_), fun q hq => ?_, hr.order.sublist (hsub.map _)⟩
  · exact hlive q hq fun b hb => hqs (((hr.rep.owned o s hs).2 q).mpr ⟨b, hb⟩)
  · refine hlive q hq fun b hb => ?_
    have hknown := hr.rep.known q o b hb
    rw [hs] at hknown
    cases hknown
  · obtain ⟨⟨o', b⟩, hob⟩ := Option.isSome_iff_exists.mp hq
    obtain ⟨hne, htbl⟩ := PageTable.without_eq_some.mp hob
    obtain ⟨x, hx, rfl⟩ := List.mem_map.mp (hr.listed q (by rw [htbl]; rfl))
    refine List.mem_map_of_mem (hkeep x hx fun s hs hmem => ?_)
    obtain ⟨b', hb'⟩ := ((hr.rep.owned o s hs).2 x.2).mp hmem
    rw [htbl, Option.some.injEq, Prod.mk.injEq] at hb'
    exact hne hb'.1

end Ranked

end Engine

/-! ### Runs -/

/-- The pages that were stored or read, the last one first. -/
def touches (used : List Use) : List ℕ := (used.filter fun u => !u.update).map Use.page

@[simp] lemma touches_update (p : ℕ) (used : List Use) : touches (⟨p, true⟩ :: used)
    = touches used := rfl

@[simp] lemma touches_touch (p : ℕ) (used : List Use) : touches (⟨p, false⟩ :: used) = p
    :: touches used :=
  rfl

/-- A turn that stores no block under the content id `none`. -/
def EngineTurn.Named : EngineTurn → Prop
  | allocate owner .. => owner ≠ "none"
  | _ => True

/-- **One turn** keeps the list in the order of stores and reads. -/
theorem Engine.Ranked.step (h : OneBlock cfg) (hl : cfg.applyLruEviction = true)
    {s s' : Engine × Disk × List Use} {tbl : PageTable} (hr : Ranked cfg s.1 tbl (touches s.2.2))
    (t : EngineTurn) (ht : t.Named) (hstep : t.step cfg s = some s') :
    ∃ tbl', Ranked cfg s'.1 tbl' (touches s'.2.2) := by
  obtain ⟨e, d, used⟩ := s
  cases t with
  | allocate owner blk b op =>
      rw [EngineTurn.step, Option.map_eq_some_iff] at hstep
      obtain ⟨⟨e', d', page⟩, ha, rfl⟩ := hstep
      obtain ⟨tbl', hR', hH⟩ := hr.rep.allocateBlock_housed h ht hr.lruOk.live ha
      have hL' := hH.lruOk hr.lruOk
      have hnew : (∀ q, b.pageId = some q → tbl q ≠ some (owner, blk)) →
          e.isBlockCached cfg owner b.pageId blk = false := hr.rep.isBlockCached_eq_false
      refine ⟨tbl', ?_⟩
      dsimp only at hr ⊢
      cases hH with
      -- an update leaves the list as it is
      | update p hb hp hlru =>
          have hc : e.isBlockCached cfg owner b.pageId blk = true :=
            hr.rep.isBlockCached_iff.mpr ⟨p, hb, hp⟩
          have hlist : e'.lruMainVector = e.lruMainVector := congrArg Prod.fst hlru
          simp only [hc, Option.toList_some, List.map_singleton, List.singleton_append,
            touches_update]
          exact ⟨hR', hL', hlist ▸ hr.listed, hlist ▸ hr.order⟩
      -- a block that comes into a page is the newest
      | fresh p hb hlt hp hlru =>
          simp only [hnew hb, Option.toList_some, List.map_singleton, List.singleton_append,
            touches_touch]
          rw [hl, if_pos rfl, hr.lruOk.applyLruOnWrite_eq hr.lt hlt] at hlru
          exact hr.visit hR' hL' (fun q hq => Function.update_of_ne hq _ _) hlru
      | evict n p hb _ hlast hused hlru =>
          simp only [hnew hb, Option.toList_some, List.map_singleton, List.singleton_append,
            touches_touch]
          rw [hr.lruOk.applyLruOnWrite_eq hr.lt (hr.lt p hused)] at hlru
          exact hr.visit hR' hL' (fun q hq => Function.update_of_ne hq _ _) hlru
      | full hoff => rw [hl] at hoff; cases hoff
  | get owner blk pageId data max =>
      rw [EngineTurn.step, Option.some.injEq] at hstep
      subst hstep
      refine ⟨tbl, ?_⟩
      dsimp only
      cases pageId with
      | none =>
          simp only [getLoop, Option.toList_none, List.map_nil, ite_self, List.nil_append]
          exact hr
      | some p =>
          rw [getLoop]
          -- a block that is found is the newest, and one that is not changes nothing
          by_cases hc : e.isBlockCached cfg owner (some p) blk = true
          · obtain ⟨q, hq, htq⟩ := hr.rep.isBlockCached_iff.mp hc
            obtain rfl : p = q := Option.some.inj hq
            simp only [hc, hl, if_true, getLoop, Option.toList_some, List.map_singleton,
              List.singleton_append, touches_touch]
            exact hr.visit ((sameStore_applyLruOnRead e p).rep hr.rep)
              (hr.lruOk.applyLruOnRead hl (by rw [htq]; rfl)) (fun _ _ => rfl) rfl
          · simp only [hc, Bool.false_eq_true, if_false, getLoop, List.nil_append]
            exact hr
  | remove owner =>
      rw [EngineTurn.step, Option.some.injEq] at hstep
      subst hstep
      exact ⟨_, hr.remove h hl owner⟩

/-- The pages of a new engine are free. -/
lemma Engine.ranked_new (h : OneBlock cfg) : Ranked cfg (Engine.new cfg) (fun _ => none) [] where
  rep := rep_new h
  lruOk := ⟨fun p n => by simp [Engine.new], List.nodup_nil, fun _ hx => by simp [Engine.new] at hx,
    fun _ hx => by simp [Engine.new] at hx, fun _ => rfl⟩
  listed := fun _ hq => by cases hq
  order := List.Pairwise.nil

/-- A block of the page `p` is cached. -/
def Engine.InUse (cfg : Config) (e : Engine) (p : ℕ) : Prop :=
  ∃ owner blk, e.isBlockCached cfg owner (some p) blk = true

/-- A block of the page `p` is cached no longer. -/
def Engine.Evicted (cfg : Config) (e e' : Engine) (p : ℕ) : Prop :=
  ∃ owner blk, e.isBlockCached cfg owner (some p) blk = true ∧
    e'.isBlockCached cfg owner (some p) blk = false

/-- The page at the back of the list was used least recently. -/
theorem Engine.Ranked.back_oldest {e : Engine} {tbl : PageTable} {used : List ℕ}
    (hr : Ranked cfg e tbl used) {n v : ℕ} (hlast : e.lruMainVector.getLast? = some (n, v)) {q : ℕ}
    (hq : InUse cfg e q) (hne : q ≠ v) : used.idxOf q < used.idxOf v := by
  obtain ⟨o, b, hqb⟩ := hq
  obtain ⟨q', hqq, htq⟩ := hr.rep.isBlockCached_iff.mp hqb
  obtain rfl : q = q' := Option.some.inj hqq
  -- every other page in use stands before the back of the list
  have hsplit := List.dropLast_append_getLast? _ hlast
  have horder := hr.order
  have hmem := hr.listed q (by rw [htq]; rfl)
  rw [← hsplit, List.map_append, List.map_singleton] at horder hmem
  rcases List.mem_append.mp hmem with hin | hlast
  · exact (List.pairwise_append.mp horder).2.2 q hin v (List.mem_singleton_self _)
  · exact absurd (List.mem_singleton.mp hlast) hne

/-- An allocation evicts the page at the back of the list. -/
theorem Engine.Ranked.evicted (h : OneBlock cfg) (hl : cfg.applyLruEviction = true)
    {e e' : Engine} {d d' : Disk} {tbl : PageTable} {used : List ℕ} (hr : Ranked cfg e tbl used)
    {owner : String} {blk : ℤ} {b : BlockData} {op : AllocateOperationType} {page : Option ℕ}
    (howner : owner ≠ "none") (ha : e.allocateBlock cfg d owner blk b op = some (e', d', page))
    {v : ℕ} (hv : Evicted cfg e e' v) : ∃ n, e.lruMainVector.getLast? = some (n, v) := by
  obtain ⟨tbl', hR', hH⟩ := hr.rep.allocateBlock_housed h howner hr.lruOk.live ha
  obtain ⟨o, b', hin, hout⟩ := hv
  obtain ⟨v', hv', hold⟩ := hr.rep.isBlockCached_iff.mp hin
  obtain rfl : v = v' := Option.some.inj hv'
  have hgone : tbl' v ≠ some (o, b') := fun hc => by
    rw [hR'.isBlockCached_iff.mpr ⟨v, rfl, hc⟩] at hout
    cases hout
  cases hH with
  | update => exact absurd hold hgone
  | fresh p _ _ hp =>
      have hvp : v ≠ p := fun heq => by
        rw [heq, hp] at hold
        cases hold
      rw [Function.update_of_ne hvp] at hgone
      exact absurd hold hgone
  | evict n p _ _ hlast =>
      obtain rfl : v = p := by
        by_contra hvp
        rw [Function.update_of_ne hvp] at hgone
        exact hgone hold
      exact ⟨n, hlast⟩
  | full hoff => rw [hl] at hoff; cases hoff

/-! ### The order of uses -/

/-- The last use of the page `p` is a store or a read. -/
def Refreshed (used : List Use) (p : ℕ) : Prop := used.find? (fun u => u.page = p) = some ⟨p, false⟩

instance (used : List Use) (p : ℕ) : Decidable (Refreshed used p) :=
  inferInstanceAs (Decidable (_ = _))

/-- Pages stored or read before a page whose last use is a store or a read were used before it. -/
lemma Refreshed.idxOf_lt {used : List Use} {q v : ℕ} (hv : Refreshed used v) (hne : q ≠ v)
    (hlt : (touches used).idxOf q < (touches used).idxOf v) :
    (used.map Use.page).idxOf q < (used.map Use.page).idxOf v := by
  induction used with
  | nil => exact absurd hlt (lt_irrefl _)
  | cons u used ih =>
      obtain ⟨p, update⟩ := u
      rw [List.map_cons]
      by_cases hp : p = q
      · subst hp
        rw [List.idxOf_cons_self, List.idxOf_cons_ne _ hne]
        exact Nat.succ_pos _
      by_cases hpv : p = v
      · -- the last use of `v` comes first
        subst hpv
        rw [Refreshed, List.find?_cons_of_pos (by simp), Option.some.injEq, Use.mk.injEq] at hv
        obtain ⟨-, rfl⟩ := hv
        rw [touches_touch, List.idxOf_cons_self] at hlt
        exact absurd hlt (Nat.not_lt_zero _)
      · rw [Refreshed, List.find?_cons_of_neg (by simpa using hpv)] at hv
        rw [List.idxOf_cons_ne _ hp, List.idxOf_cons_ne _ hpv]
        refine Nat.succ_lt_succ (ih hv ?_)
        cases update with
        | true => rwa [touches_update] at hlt
        | false =>
            rw [touches_touch, List.idxOf_cons_ne _ hp, List.idxOf_cons_ne _ hpv] at hlt
            exact Nat.lt_of_succ_lt_succ hlt

/-- A new engine with a disk, before any use. -/
def EngineTurn.Start (cfg : Config) (s : Engine × Disk × List Use) : Prop := ∃ d,
  s = (.new cfg, d, [])

/-- The block of the page at the back of the list was not updated since it was last stored or
read. -/
def BackRefreshed (s : Engine × Disk × List Use) : Prop :=
  ∀ x ∈ s.1.lruMainVector.getLast?, Refreshed s.2.2 x.2

instance (s : Engine × Disk × List Use) : Decidable (BackRefreshed s) :=
  inferInstanceAs (Decidable (∀ x ∈ s.1.lruMainVector.getLast?, _))

/-- **A page that is evicted is the one used least recently**, in every run, when the block at the
back of the list was not updated since it was last stored or read. -/
theorem victim_oldest (h : OneBlock cfg) (hl : cfg.applyLruEviction = true)
    {s s' : Engine × Disk × List Use}
    (hs : Runs.Reach (EngineTurn.step cfg) (fun _ t => t.Named) (EngineTurn.Start cfg) s)
    {owner : String} (howner : owner ≠ "none") {blk : ℤ} {b : BlockData}
    {op : AllocateOperationType} (hstep : (EngineTurn.allocate owner blk b op).step cfg s = some s')
    {v : ℕ} (hv : Evicted cfg s.1 s'.1 v) (hback : BackRefreshed s) {q : ℕ} (hq : InUse cfg s.1 q)
    (hne : q ≠ v) : (s.2.2.map Use.page).idxOf q < (s.2.2.map Use.page).idxOf v := by
  have hinv := hs.invariant (P := fun s => ∃ tbl, Ranked cfg s.1 tbl (touches s.2.2))
    (by rintro _ ⟨d, rfl⟩; exact ⟨_, ranked_new h⟩)
    (fun t a t' ⟨_, ht⟩ hok hst => ht.step h hl a hok hst)
  obtain ⟨tbl, hr⟩ := hinv
  rw [EngineTurn.step, Option.map_eq_some_iff] at hstep
  obtain ⟨⟨e', d', page⟩, ha, rfl⟩ := hstep
  obtain ⟨n, hlast⟩ := hr.evicted h hl howner ha hv
  exact (hback (n, v) hlast).idxOf_lt hne (hr.back_oldest hlast hq hne)

/-! ### Two pages -/

/-- A block of one item, which the caller believes to be in a page. -/
def putBlock (blk : ℤ) (pageId : Option ℕ) : EngineTurn :=
  .allocate "1" blk ⟨pageId, fun _ => 7, 4, 0⟩ .opWrite

/-- The states before and after the last of some turns. -/
def lastTurn (turns : List EngineTurn) (t : EngineTurn) :
    Option ((Engine × Disk × List Use) × (Engine × Disk × List Use)) :=
  (Runs.run (EngineTurn.step (.tiny 2 true)) (.new (.tiny 2 true), .empty, []) turns).bind fun s =>
    (t.step (.tiny 2 true) s).map fun s' => (s, s')

lemma of_lastTurn {turns : List EngineTurn} {t : EngineTurn} {s s' : Engine × Disk × List Use}
    (hs : lastTurn turns t = some (s, s')) :
    Runs.run (EngineTurn.step (.tiny 2 true)) (.new (.tiny 2 true), .empty, []) turns = some s ∧
      t.step (.tiny 2 true) s = some s' := by
  rw [lastTurn, Option.bind_eq_some_iff] at hs
  obtain ⟨s1, h1, h2⟩ := hs
  obtain ⟨s2, h3, h4⟩ := Option.map_eq_some_iff.mp h2
  obtain ⟨rfl, rfl⟩ := Prod.mk.inj h4
  exact ⟨h1, h3⟩

/-- The first of two blocks is evicted by a third. -/
theorem victim_oldest_third : ∃ s s', lastTurn [putBlock 0 none, putBlock 1 none] (putBlock 2 none)
    = some (s, s') ∧ (s.2.2.map Use.page).idxOf 0 < (s.2.2.map Use.page).idxOf 1 := by
  obtain ⟨⟨s, s'⟩, hs⟩ := Option.isSome_iff_exists.mp
    (show (lastTurn [putBlock 0 none, putBlock 1 none] (putBlock 2 none)).isSome by decide +kernel)
  have hall : (lastTurn [putBlock 0 none, putBlock 1 none] (putBlock 2 none)).map (fun r =>
      (r.1.1.isBlockCached (.tiny 2 true) "1" (some 1) 0,
        r.2.1.isBlockCached (.tiny 2 true) "1" (some 1) 0,
        r.1.1.isBlockCached (.tiny 2 true) "1" (some 0) 1, decide (BackRefreshed r.1)))
      = some (true, false, true, true) := by decide +kernel
  rw [hs, Option.map_some, Option.some.injEq, Prod.mk.injEq, Prod.mk.injEq, Prod.mk.injEq,
    decide_eq_true_eq] at hall
  obtain ⟨h1, h2, h3, h4⟩ := hall
  obtain ⟨hrun, hstep⟩ := of_lastTurn hs
  have hnamed : ∀ t ∈ [putBlock 0 none, putBlock 1 none], t.Named := by
    intro t ht
    rcases List.mem_pair.mp ht with rfl | rfl <;> exact (by decide : "1" ≠ "none")
  have hreach : Runs.Reach (EngineTurn.step (.tiny 2 true)) (fun _ t => t.Named)
      (EngineTurn.Start (.tiny 2 true)) s :=
    Runs.Reach.of_run (.init ⟨.empty, rfl⟩) (Runs.guarded_of_forall hnamed) hrun
  exact ⟨s, s', hs, victim_oldest (Config.onePage_tiny 2 true).oneBlock rfl hreach (by decide) hstep
    ⟨"1", 0, h1, h2⟩ h4 ⟨"1", 1, h3⟩ (by decide)⟩

/-- The first of two blocks is updated, and is evicted by a third nevertheless. -/
theorem updated_page_evicted : ∃ s s',
    lastTurn [putBlock 0 none, putBlock 1 none, putBlock 0 (some 1)]
    (putBlock 2 none) = some (s, s') ∧
      Evicted (.tiny 2 true) s.1 s'.1 1 ∧ InUse (.tiny 2 true) s.1 0 ∧
      (s.2.2.map Use.page).idxOf 1 = 0 ∧ (s.2.2.map Use.page).idxOf 0 = 1 := by
  obtain ⟨⟨s, s'⟩, hs⟩ := Option.isSome_iff_exists.mp
    (show (lastTurn [putBlock 0 none, putBlock 1 none, putBlock 0 (some 1)]
      (putBlock 2 none)).isSome by decide +kernel)
  have hall : (lastTurn [putBlock 0 none, putBlock 1 none, putBlock 0 (some 1)]
      (putBlock 2 none)).map
      (fun r => (r.1.1.isBlockCached (.tiny 2 true) "1" (some 1) 0,
        r.2.1.isBlockCached (.tiny 2 true) "1" (some 1) 0,
        r.1.1.isBlockCached (.tiny 2 true) "1" (some 0) 1, r.1.2.2.map Use.page))
      = some (true, false, true, [1, 0, 1]) := by decide +kernel
  rw [hs, Option.map_some, Option.some.injEq, Prod.mk.injEq, Prod.mk.injEq, Prod.mk.injEq] at hall
  obtain ⟨h1, h2, h3, h4⟩ := hall
  refine ⟨s, s', hs, ⟨"1", 0, h1, h2⟩, ⟨"1", 1, h3⟩, ?_, ?_⟩
  · rw [h4]
    decide
  · rw [h4]
    decide

end LazyFS
