import LazyFS.Hooks.Marks

/-!
The **torn writes** as a machine of their own.

* `seqsOf`, `splitsOf`: the torn-seq faults for writes and the torn-op faults of every path.
* `TornState`: what the torn writes work on; `TornState.persist` is `persist_write` on it.
* `wp_persistWrite`, `wp_splitWrite`: the two functions follow the machine.
-/

namespace LazyFS

open Program

/-! ### The faults of one kind -/

/-- A torn-seq fault for writes among all faults. -/
def Fault.seq? : Fault → Option ReorderF
  | .reorder f => if f.op = "write" then some f else none
  | _ => none

/-- A torn-op fault among all faults. -/
def Fault.split? : Fault → Option SplitWriteF
  | .splitWrite f => some f
  | _ => none

/-- The torn-seq faults for writes by the path they are registered for. -/
abbrev Seqs := String → List ReorderF

/-- The torn-seq faults for writes that are registered. -/
def seqsOf (m : Faults) : Seqs := fun path => (faultsOf m path).filterMap Fault.seq?

/-- The torn-op faults that are registered. -/
def splitsOf (m : Faults) : String → List SplitWriteF := fun path =>
  (faultsOf m path).filterMap Fault.split?

/-- The last element of a list changed. -/
def mapLast {α : Type} (g : α → α) (l : List α) : List α := l.dropLast ++ (l.getLast?.map g).toList

/-- The first element of a list changed. -/
def mapHead {α : Type} (g : α → α) : List α → List α
  | [] => []
  | x :: l => g x :: l

/-- What a change of the faults of one path makes of those of one kind. -/
lemma filterMap_mapFaults {α : Type} (k : Fault → Option α) (m : Faults) (path p : String)
    {g : List Fault → List Fault} {g' : List α → List α}
    (hg : ∀ l, (g l).filterMap k = g' (l.filterMap k)) (hnil : g' [] = []) :
    (faultsOf (mapFaults m path g) p).filterMap k
      = if p = path then g' ((faultsOf m path).filterMap k) else (faultsOf m p).filterMap k := by
  rw [faultsOf, mapFaults, Map.lookup_update]
  split_ifs with hp
  · rw [faultsOf]
    cases m.lookup path with
    | none => exact hnil.symm
    | some l => exact hg l
  · rfl

lemma seqsOf_mapFaults (m : Faults) (path : String) {g : List Fault → List Fault}
    {g' : List ReorderF → List ReorderF}
    (hg : ∀ l, (g l).filterMap Fault.seq? = g' (l.filterMap Fault.seq?)) (hnil : g' [] = []) :
    seqsOf (mapFaults m path g) = Function.update (seqsOf m) path (g' (seqsOf m path)) := by
  funext p
  rw [seqsOf, filterMap_mapFaults Fault.seq? m path p hg hnil, Function.update_apply]
  rfl

lemma splitsOf_mapFaults (m : Faults) (path : String) {g : List Fault → List Fault}
    {g' : List SplitWriteF → List SplitWriteF}
    (hg : ∀ l, (g l).filterMap Fault.split? = g' (l.filterMap Fault.split?)) (hnil : g' [] = []) :
    splitsOf (mapFaults m path g) = Function.update (splitsOf m) path (g' (splitsOf m path)) := by
  funext p
  rw [splitsOf, filterMap_mapFaults Fault.split? m path p hg hnil, Function.update_apply]
  rfl

section

variable {g : ReorderF → ReorderF} {h : SplitWriteF → SplitWriteF}

lemma seq?_mapReorder (hg : ∀ f, (g f).op = f.op) (l : List Fault) :
    (mapReorder "write" g l).filterMap Fault.seq? = (l.filterMap Fault.seq?).map g := by
  induction l with
  | nil => rfl
  | cons x l ih =>
      rw [mapReorder, List.map_cons, ← mapReorder, List.filterMap_cons, List.filterMap_cons, ih]
      cases x with
      | reorder f =>
          by_cases hf : f.op = "write"
          · simp [Fault.seq?, hf, hg]
          · simp [Fault.seq?, hf]
      | splitWrite f => rfl
      | clear f => rfl

lemma split?_mapReorder (l : List Fault) :
    (mapReorder "write" g l).filterMap Fault.split? = l.filterMap Fault.split? := by
  induction l with
  | nil => rfl
  | cons x l ih =>
      rw [mapReorder, List.map_cons, ← mapReorder, List.filterMap_cons, List.filterMap_cons, ih]
      cases x with
      | reorder f => dsimp only; split_ifs <;> rfl
      | splitWrite f => rfl
      | clear f => rfl

/-- The torn-seq fault that the source works with is the last one. -/
lemma lastReorder_eq (l : List Fault) :
    lastReorder "write" l = (l.filterMap Fault.seq?).getLast? := by
  induction l with
  | nil => rfl
  | cons x l ih =>
      unfold lastReorder
      rw [List.filterMap_cons, ih]
      cases hl : (l.filterMap Fault.seq?).getLast? with
      | some f =>
          cases hx : x.seq? with
          | none => exact hl.symm
          | some y =>
              dsimp only
              rw [List.getLast?_cons, hl]
              rfl
      | none =>
          have hnil : l.filterMap Fault.seq? = [] := List.getLast?_eq_none_iff.mp hl
          rw [hnil]
          cases x with
          | reorder f =>
              by_cases hf : f.op = "write"
              · simp [Fault.seq?, hf]
              · simp [Fault.seq?, hf]
          | splitWrite f => rfl
          | clear f => rfl

lemma mapLast_cons {α : Type} {g : α → α} (x : α) {l : List α} (hl : l ≠ []) :
    mapLast g (x :: l) = x :: mapLast g l := by
  rw [mapLast, List.dropLast_cons_of_ne_nil hl, List.getLast?_cons_of_ne_nil hl]
  rfl

lemma seq?_mapLastReorder (hg : ∀ f, (g f).op = f.op) (l : List Fault) :
    (mapLastReorder "write" g l).filterMap Fault.seq? = mapLast g (l.filterMap Fault.seq?) := by
  induction l with
  | nil => rfl
  | cons x l ih =>
      unfold mapLastReorder
      rw [lastReorder_eq]
      cases hl : (l.filterMap Fault.seq?).getLast? with
      | some f =>
          have hne : l.filterMap Fault.seq? ≠ [] := by
            intro hnil
            rw [hnil] at hl
            cases hl
          dsimp only
          rw [List.filterMap_cons, List.filterMap_cons, ih]
          cases x.seq? with
          | none => rfl
          | some y => exact (mapLast_cons y hne).symm
      | none =>
          have hnil : l.filterMap Fault.seq? = [] := List.getLast?_eq_none_iff.mp hl
          cases x with
          | reorder f =>
              by_cases hf : f.op = "write"
              · simp [Fault.seq?, hf, hg, hnil, mapLast]
              · simp [Fault.seq?, hf, hnil, mapLast]
          | splitWrite f =>
              have hx : (Fault.splitWrite f :: l).filterMap Fault.seq? = [] := hnil
              dsimp only
              rw [hx]
              rfl
          | clear f =>
              have hx : (Fault.clear f :: l).filterMap Fault.seq? = [] := hnil
              dsimp only
              rw [hx]
              rfl

lemma split?_mapLastReorder (l : List Fault) :
    (mapLastReorder "write" g l).filterMap Fault.split? = l.filterMap Fault.split? := by
  induction l with
  | nil => rfl
  | cons x l ih =>
      unfold mapLastReorder
      split
      · rw [List.filterMap_cons, List.filterMap_cons, ih]
      · split_ifs <;> rfl
      · rfl

lemma seq?_mapFirstSplit (l : List Fault) :
    (mapFirstSplit h l).filterMap Fault.seq? = l.filterMap Fault.seq? := by
  induction l with
  | nil => rfl
  | cons x l ih =>
      cases x with
      | splitWrite f => rfl
      | reorder f =>
          rw [mapFirstSplit, List.filterMap_cons, List.filterMap_cons, ih]
          exact fun f' hf => by cases hf
      | clear f => exact ih

lemma split?_mapFirstSplit (l : List Fault) :
    (mapFirstSplit h l).filterMap Fault.split? = mapHead h (l.filterMap Fault.split?) := by
  induction l with
  | nil => rfl
  | cons x l ih =>
      cases x with
      | splitWrite f => rfl
      | reorder f => exact ih
      | clear f => exact ih

lemma firstSplit_eq (l : List Fault) : firstSplit l = (l.filterMap Fault.split?).head? := by
  induction l with
  | nil => rfl
  | cons x l ih =>
      cases x with
      | splitWrite f => rfl
      | reorder f => exact ih
      | clear f => exact ih

end

/-! ### The machine -/

/-- What the torn writes work on. -/
structure TornState where
  seqs : Seqs
  pending : Option Write
  persisted : List Write
  /-- The crash faults after a write. -/
  armed : List (String × String)
  disk : Disk

/-- The crash fault that a torn write arms. -/
def armedBy (path : Path) : String × String := (path.str, "none")

/-- A write sent to its backing file, and whether all of it was written. -/
def Disk.send (d : Disk) (w : Write) (fate : Fate) (io : Lfs.TornIo) : Disk × Bool :=
  match d.create w.path { readable := false, writable := true } io.newIno io.now with
  | none => (d, decide ((d.pwrite none fate w.buf w.offset).1 = w.buf.length))
  | some (d, fd) =>
      ((d.pwrite (some fd) fate w.buf w.offset).2,
        decide ((d.pwrite (some fd) fate w.buf w.offset).1 = w.buf.length))

namespace TornState

/-- A write sent to its backing file. -/
def send (t : TornState) (w : Write) (fate : Fate) (io : Lfs.TornIo) : TornState × Bool :=
  ({ t with persisted := w :: t.persisted, disk := (t.disk.send w fate io).1 },
    (t.disk.send w fate io).2)

/-- A crash fault armed after the writes to a path. -/
def arm (t : TornState) (path : Path) : TornState := { t with armed := t.armed ++ [armedBy path] }

/-- The write is counted. -/
def count (t : TornState) (path : String) : TornState :=
  { t with
      seqs := Function.update t.seqs path
        ((t.seqs path).map fun f => { f with counter := f.counter + 1 }) }

/-- The second write of a group counts the group. -/
def countGroup (t : TornState) (path : String) (fault : ReorderF) : TornState × ReorderF :=
  if fault.counter = 2 then
    ({ t with
        seqs := Function.update t.seqs path
          (mapLast (fun f => { f with groupCounter := f.groupCounter + 1 }) (t.seqs path)) },
      { fault with groupCounter := fault.groupCounter + 1 })
  else (t, fault)

/-- The write that is held back is sent or forgotten; `true` when it stays, with a crash fault
armed. -/
def resolve (t : TornState) (path : Path) (fault : ReorderF) (io : Lfs.TornIo) : TornState × Bool :=
  match t.pending with
  | none => (t, false)
  | some w =>
      if fault.groupCounter = fault.occurrence then
        let r := t.send w io.pendingPwrite io
        if r.2 ∧ fault.persist.length = 1 then (r.1.arm path, true)
        else ({ r.1 with pending := none }, false)
      else ({ t with pending := none }, false)

/-- The write itself is held back, sent or left alone; `true` when a crash fault is armed. -/
def own (t : TornState) (fault : ReorderF) (w : Write) (io : Lfs.TornIo) : TornState × Bool :=
  if fault.counter ∈ fault.persist then
    if fault.counter = 1 then ({ t with pending := some w }, false)
    else if fault.groupCounter = fault.occurrence then
      let r := t.send w io.ownPwrite io
      if r.2 ∧ fault.persist.getLast? = some fault.counter then
        (r.1.arm w.path, true) else (r.1, false)
    else (t, false)
  else (t, false)

/-- `persist_write`, from the fault that counted the write. -/
def persistFrom (t : TornState) (w : Write) (io : Lfs.TornIo) (fault : ReorderF) :
    TornState × Bool :=
  let g := t.countGroup w.path.str fault
  let r := g.1.resolve w.path g.2 io
  if r.2 then (r.1, false) else r.1.own g.2 w io

/-- `persist_write`. -/
def persist (t : TornState) (w : Write) (io : Lfs.TornIo) : TornState × Bool :=
  match ((t.count w.path.str).seqs w.path.str).getLast? with
  | none => (t.count w.path.str, false)
  | some fault => (t.count w.path.str).persistFrom w io fault

/-- The crash faults that `persist_write` arms are for the path. -/
lemma armed_persist (t : TornState) (w : Write) (io : Lfs.TornIo) :
    ∃ n, (t.persist w io).1.armed = t.armed ++ List.replicate n (armedBy w.path) := by
  have hzero : ∀ t' : TornState, t'.armed = t.armed →
      ∃ n, t'.armed = t.armed ++ List.replicate n (armedBy w.path) := fun t' h =>
    ⟨0, by rw [h, List.replicate_zero, List.append_nil]⟩
  have hone : ∀ t' : TornState, t'.armed = t.armed →
      ∃ n, (t'.arm w.path).armed = t.armed ++ List.replicate n (armedBy w.path) := fun t' h =>
    ⟨1, by rw [arm, h]; rfl⟩
  rw [persist]
  cases ((t.count w.path.str).seqs w.path.str).getLast? with
  | none => exact hzero _ rfl
  | some fault =>
      have hgroup : ((t.count w.path.str).countGroup w.path.str fault).1.armed = t.armed := by
        rw [countGroup]
        split_ifs <;> rfl
      -- a fault is armed where a write of the group is not persisted
      dsimp only [persistFrom]
      generalize (t.count w.path.str).countGroup w.path.str fault = g at hgroup ⊢
      have hresolve : (g.1.resolve w.path g.2 io).2 = false →
          (g.1.resolve w.path g.2 io).1.armed = t.armed := by
        rw [resolve]
        cases g.1.pending with
        | none => exact fun _ => hgroup
        | some w' =>
            dsimp only
            split_ifs
            · exact fun h => by cases h
            · exact fun _ => hgroup
            · exact fun _ => hgroup
      split_ifs with hr
      · rw [resolve] at hr ⊢
        cases hp : g.1.pending with
        | none => exact hzero _ hgroup
        | some w' =>
            dsimp only
            split_ifs
            · exact hone _ hgroup
            · exact hzero _ hgroup
            · exact hzero _ hgroup
      · have hr' := hresolve (Bool.not_eq_true _ ▸ hr)
        rw [own]
        dsimp only
        split_ifs
        · exact hzero _ hr'
        · exact hone _ hr'
        · exact hzero _ hr'
        · exact hzero _ hr'
        · exact hzero _ hr'

end TornState

namespace Lfs

/-- The torn writes of a file system. -/
def torn (s : Lfs) : TornState :=
  ⟨seqsOf s.faults, s.pendingWrite, s.persisted, (s.crashFaultsAt "after" "write").getD [],
    s.fs.disk⟩

variable {s : Lfs}

/-- What the torn writes leave alone, but for the torn-op faults. -/
structure TornOnly (s s' : Lfs) : Prop where
  cache : s'.fs.cache = s.fs.cache
  clears : ∀ path, (faultsOf s'.faults path).filterMap Fault.clear?
    = (faultsOf s.faults path).filterMap Fault.clear?
  before : s'.crashFaultsBefore = s.crashFaultsBefore
  after : ∀ op, op ≠ "write" → s'.crashFaultsAt "after" op = s.crashFaultsAt "after" op
  known : (s'.crashFaultsAt "after" "write").isSome = (s.crashFaultsAt "after" "write").isSome
  holds : s'.sharedHolds = s.sharedHolds
  trace : s'.trace = s.trace

lemma TornOnly.refl (s : Lfs) : TornOnly s s :=
  ⟨rfl, fun _ => rfl, rfl, fun _ _ => rfl, rfl, rfl, rfl⟩

lemma TornOnly.trans {s' s'' : Lfs} (h : TornOnly s s') (h' : TornOnly s' s'') : TornOnly s s'' :=
  ⟨h'.cache.trans h.cache, fun path => (h'.clears path).trans (h.clears path),
    h'.before.trans h.before, fun op hop => (h'.after op hop).trans (h.after op hop),
    h'.known.trans h.known, h'.holds.trans h.holds, h'.trace.trans h.trace⟩

/-- A program that takes the torn writes to `t`, with the result `a`, and leaves all else alone. -/
def Moves {α : Type} (m : FaultM α) (s : Lfs) (t : TornState) (a : α) : Prop :=
  wp m (fun r s' => r = a ∧ s'.torn = t ∧ TornOnly s s' ∧ splitsOf s'.faults = splitsOf s.faults)
    (fun _ _ => False) s

namespace Moves

variable {α β : Type} {t t' : TornState} {a : α} {b : β}

lemma bind {m : FaultM α} {k : α → FaultM β} (h : Moves m s t a)
    (hk : ∀ s', s'.torn = t → (s'.crashFaultsAt "after" "write").isSome
      = (s.crashFaultsAt "after" "write").isSome → Moves (k a) s' t' b) :
      Moves (m >>= k) s t' b := by
  rw [Moves, wp_bind]
  refine wp_mono h ?_ fun _ _ he => he
  rintro r s' ⟨rfl, ht, ho, hs⟩
  refine wp_mono (hk s' ht ho.known) ?_ fun _ _ he => he
  rintro r' s'' ⟨rfl, ht', ho', hs'⟩
  exact ⟨rfl, ht', ho.trans ho', hs'.trans hs⟩

lemma get {k : Lfs → FaultM β} (h : Moves (k s) s t b) : Moves (get >>= k) s t b := h

lemma pure (a : α) : Moves (pure a) s s.torn a := ⟨rfl, rfl, .refl s, rfl⟩

/-- The torn-seq faults of a path changed. -/
lemma modifySeqs (path : String) {g : List Fault → List Fault} {g' : List ReorderF → List ReorderF}
    (hg : ∀ l, (g l).filterMap Fault.seq? = g' (l.filterMap Fault.seq?)) (hnil : g' [] = [])
    (hsplit : ∀ l, (g l).filterMap Fault.split? = l.filterMap Fault.split?)
    (hclear : ∀ l, (g l).filterMap Fault.clear? = l.filterMap Fault.clear?) :
    Moves (modify fun s => { s with faults := mapFaults s.faults path g }) s
      { s.torn with seqs := Function.update s.torn.seqs path (g' (s.torn.seqs path)) } ⟨⟩ := by
  refine ⟨rfl, ?_, ⟨rfl, fun p => ?_, rfl, fun _ _ => rfl, rfl, rfl, rfl⟩, ?_⟩
  · rw [torn, torn, seqsOf_mapFaults _ _ hg hnil]
    rfl
  · exact congrFun (clearsOf_mapFaults s.faults path hclear) p
  · have hsame : ∀ l, (g l).filterMap Fault.split? = id (l.filterMap Fault.split?) := hsplit
    rw [splitsOf_mapFaults s.faults path hsame rfl, id, Function.update_eq_self]

lemma modifyPending (f : Option Write → Option Write) :
    Moves (modify fun s => { s with pendingWrite := f s.pendingWrite }) s
      { s.torn with pending := f s.torn.pending } ⟨⟩ :=
  ⟨rfl, rfl, ⟨rfl, fun _ => rfl, rfl, fun _ _ => rfl, rfl, rfl, rfl⟩, rfl⟩

end Moves

/-- A crash fault is armed. -/
lemma moves_addCrashFault (hk : (s.crashFaultsAt "after" "write").isSome) (path : Path) :
    Moves (addCrashFault "after" "write" path.str "none") s (s.torn.arm path) ⟨⟩ := by
  rw [Moves, wp, addCrashFault_eq hk]
  have hat : ∀ op, (s.arm "after" "write" path.str "none").crashFaultsAt "after" op
      = if ("after" = "before" ↔ "after" = "before") ∧ op = "write" then
          (s.crashFaultsAt "after" op).map (· ++ [(path.str, "none")])
        else s.crashFaultsAt "after" op := fun op => crashFaultsAt_arm
  obtain ⟨l, hl⟩ := Option.isSome_iff_exists.mp hk
  refine ⟨rfl, ?_, ⟨by rw [fs_arm], fun p => by rw [faults_arm], ?_, fun op hop => ?_, ?_, by simp,
    by simp⟩, by rw [faults_arm]⟩
  · rw [torn, hat, if_pos ⟨Iff.rfl, rfl⟩, hl, torn, TornState.arm, hl, faults_arm, pendingWrite_arm,
      persisted_arm, fs_arm]
    rfl
  · rw [arm]
    rw [if_neg (by decide)]
  · rw [hat, if_neg fun hh => hop hh.2]
  · rw [hat, if_pos ⟨Iff.rfl, rfl⟩, Option.isSome_map]

/-- A write is sent. -/
lemma moves_sendWrite (w : Write) (fate : Fate) (io : TornIo) :
    Moves (sendWrite w fate io) s (s.torn.send w fate io).1 (s.torn.send w fate io).2 := by
  have hsame : ∀ (d : Disk) (l : List Write),
      TornOnly s { s with fs := { s.fs with disk := d }, persisted := l } := fun d l =>
    ⟨rfl, fun _ => rfl, rfl, fun _ _ => rfl, rfl, rfl, rfl⟩
  rw [Moves, sendWrite, wp_bind, openCreat, wp_bind, wp_get]
  rw [TornState.send, Disk.send]
  change wp (match s.fs.disk.create w.path _ _ _ with | none => _ | some (d, fd) => _) _ _ s
  cases hc : s.fs.disk.create w.path { readable := false, writable := true } io.newIno io.now with
  | none =>
      dsimp only
      rw [wp_pure, wp_bind, wp_modify, backingPwrite, wp_bind, wp_get, wp_bind, wp_modify, wp_pure]
      have hd : s.torn.disk.create w.path { readable := false, writable := true } io.newIno io.now
          = none := hc
      rw [hd]
      exact ⟨rfl, rfl, hsame _ _, rfl⟩
  | some r =>
      obtain ⟨d, fd⟩ := r
      dsimp only
      rw [wp_bind, wp_modify, wp_pure, wp_bind, wp_modify, backingPwrite, wp_bind, wp_get, wp_bind,
        wp_modify, wp_pure]
      have hd : s.torn.disk.create w.path { readable := false, writable := true } io.newIno io.now
          = some (d, fd) := hc
      rw [hd]
      exact ⟨rfl, rfl, hsame _ _, rfl⟩

/-- The second write of a group. -/
lemma moves_countGroup (path : String) (fault : ReorderF) :
    Moves (countGroup path fault) s (s.torn.countGroup path fault).1
      (s.torn.countGroup path fault).2 := by
  rw [countGroup, TornState.countGroup]
  split_ifs
  · refine (Moves.modifySeqs path
      (seq?_mapLastReorder (g := fun f => { f with groupCounter := f.groupCounter + 1 }) fun f =>
        rfl)
      rfl split?_mapLastReorder (clear?_mapLastReorder _ _)).bind fun s' ht _ => ?_
    rw [← ht]
    exact Moves.pure _
  · exact Moves.pure _

/-- The write that is held back. -/
lemma moves_resolvePending (hk : (s.crashFaultsAt "after" "write").isSome) (path : Path)
    (fault : ReorderF) (io : TornIo) :
    Moves (resolvePending path.str fault io) s (s.torn.resolve path fault io).1
      (s.torn.resolve path fault io).2 := by
  have hforget : ∀ s' : Lfs, Moves (do
      modify fun s => { s with pendingWrite := none }
      pure false) s' { s'.torn with pending := none } false := by
    intro s'
    refine (Moves.modifyPending fun _ => none).bind fun s'' ht _ => ?_
    rw [← ht]
    exact Moves.pure _
  have hp : s.torn.pending = s.pendingWrite := rfl
  rw [resolvePending, TornState.resolve]
  refine Moves.get ?_
  rw [hp]
  cases s.pendingWrite with
  | none => exact Moves.pure _
  | some w =>
      dsimp only
      by_cases hg : fault.groupCounter = fault.occurrence
      · rw [if_pos hg, if_pos hg]
        refine (moves_sendWrite w io.pendingPwrite io).bind fun s' ht hk' => ?_
        rw [← ht]
        by_cases hs : (s.torn.send w io.pendingPwrite io).2 = true ∧ fault.persist.length = 1
        · rw [if_pos hs, if_pos hs]
          refine (moves_addCrashFault (hk'.trans hk) path).bind fun s'' ht' _ => ?_
          rw [← ht']
          exact Moves.pure _
        · rw [if_neg hs, if_neg hs]
          exact hforget s'
      · rw [if_neg hg, if_neg hg]
        exact (Moves.pure false).bind fun s' ht _ => by
          rw [← ht]
          exact hforget s'

/-- The write itself. -/
lemma moves_persistOwn (hk : (s.crashFaultsAt "after" "write").isSome)
    (fault : ReorderF) (w : Write) (io : TornIo) :
    Moves (persistOwn fault w io) s (s.torn.own fault w io).1 (s.torn.own fault w io).2 := by
  rw [persistOwn, TornState.own]
  by_cases hin : fault.counter ∈ fault.persist
  · rw [if_pos hin, if_pos hin]
    by_cases hone : fault.counter = 1
    · rw [if_pos hone, if_pos hone]
      refine (Moves.modifyPending fun _ => some w).bind fun s' ht _ => ?_
      rw [← ht]
      exact Moves.pure _
    · rw [if_neg hone, if_neg hone]
      by_cases hg : fault.groupCounter = fault.occurrence
      · rw [if_pos hg, if_pos hg]
        refine (moves_sendWrite w io.ownPwrite io).bind fun s' ht hk' => ?_
        dsimp only
        rw [← ht]
        by_cases hs : (s.torn.send w io.ownPwrite io).2 = true ∧
            fault.persist.getLast? = some fault.counter
        · rw [if_pos hs, if_pos hs]
          refine (moves_addCrashFault (hk'.trans hk) w.path).bind fun s'' ht' _ => ?_
          rw [← ht']
          exact Moves.pure _
        · rw [if_neg hs, if_neg hs]
          exact Moves.pure _
      · rw [if_neg hg, if_neg hg]
        exact Moves.pure _
  · rw [if_neg hin, if_neg hin]
    exact Moves.pure _

/-- **`persist_write`** follows the machine. -/
theorem moves_persistWrite (hk : (s.crashFaultsAt "after" "write").isSome)
    (w : Write) (io : TornIo) :
    Moves (persistWrite w io) s (s.torn.persist w io).1 (s.torn.persist w io).2 := by
  rw [persistWrite, TornState.persist]
  have hcount : Moves (getAndUpdateReorderFault w.path.str "write") s (s.torn.count w.path.str)
      ((s.torn.count w.path.str).seqs w.path.str).getLast? := by
    refine (Moves.modifySeqs w.path.str
      (seq?_mapReorder (g := fun f => { f with counter := f.counter + 1 }) fun f => rfl)
      rfl split?_mapReorder (clear?_mapReorder _ _)).bind fun s' ht _ => Moves.get ?_
    have hlast : lastReorder "write" (faultsOf s'.faults w.path.str)
        = ((s.torn.count w.path.str).seqs w.path.str).getLast? := by
      rw [lastReorder_eq]
      exact congrArg (fun t : TornState => (t.seqs w.path.str).getLast?) ht
    rw [hlast]
    have ht' : s'.torn = s.torn.count w.path.str := ht
    rw [← ht']
    exact Moves.pure _
  refine hcount.bind fun s1 h1 hk1 => ?_
  rw [← h1]
  cases (s1.torn.seqs w.path.str).getLast? with
  | none => exact Moves.pure _
  | some fault =>
      dsimp only [TornState.persistFrom]
      refine (moves_countGroup w.path.str fault).bind fun s2 h2 hk2 => ?_
      rw [← h2]
      have hk2' : (s2.crashFaultsAt "after" "write").isSome := by rw [hk2, hk1, hk]
      refine (moves_resolvePending hk2' w.path _ io).bind fun s3 h3 hk3 => ?_
      rw [← h3]
      cases (s2.torn.resolve w.path (s1.torn.countGroup w.path.str fault).2 io).2 with
      | true => exact Moves.pure _
      | false => exact moves_persistOwn (hk3.trans hk2') _ w io

/-! ### Torn-op faults -/

/-- What torn-op parts change: the backing file and the crash faults after a write, of which those
armed are for the path. -/
structure Split (path : Path) (s s' : Lfs) : Prop where
  only : TornOnly s s'
  seqs : seqsOf s'.faults = seqsOf s.faults
  pending : s'.pendingWrite = s.pendingWrite
  persisted : s'.persisted = s.persisted
  armed : ∃ n, s'.torn.armed = s.torn.armed ++ List.replicate n (armedBy path)

namespace Split

variable {path : Path}

/-- Nothing is armed. -/
lemma of_same {s' : Lfs} (ho : TornOnly s s') (hs : seqsOf s'.faults = seqsOf s.faults)
    (hp : s'.pendingWrite = s.pendingWrite) (hw : s'.persisted = s.persisted)
    (ha : s'.torn.armed = s.torn.armed) : Split path s s' :=
  ⟨ho, hs, hp, hw, 0, by rw [ha, List.replicate_zero, List.append_nil]⟩

lemma refl (s : Lfs) : Split path s s := of_same (.refl s) rfl rfl rfl rfl

lemma trans {s' s'' : Lfs} (h : Split path s s') (h' : Split path s' s'') : Split path s s'' := by
  obtain ⟨n, hn⟩ := h.armed
  obtain ⟨n', hn'⟩ := h'.armed
  refine ⟨h.only.trans h'.only, h'.seqs.trans h.seqs, h'.pending.trans h.pending,
    h'.persisted.trans h.persisted, n + n', ?_⟩
  rw [hn', hn, List.replicate_add, List.append_assoc]

/-- A change of the backing file. -/
lemma setDisk (s : Lfs) (d : Disk) : Split path s { s with fs := { s.fs with disk := d } } :=
  of_same ⟨rfl, fun _ => rfl, rfl, fun _ _ => rfl, rfl, rfl, rfl⟩ rfl rfl rfl rfl

end Split

/-- The parts of a write. -/
lemma wp_writeParts (path : Path) (fd : Option Fd) (buf : List UInt8) (io : TornIo)
    (l : List Part) :
    ∀ (k : ℕ) (s : Lfs), wp (writeParts fd buf io l k)
      (fun _ s' => Split path s s' ∧ s'.faults = s.faults) (fun _ _ => False) s := by
  induction l with
  | nil => exact fun k s => ⟨.refl s, rfl⟩
  | cons p l ih =>
      intro k s
      obtain ⟨bufI, len, off⟩ := p
      set part := Bytes.slice buf bufI.toNat len.toNat with hpart
      rw [writeParts, wp_bind, wp_modify, wp_bind, backingPwrite, wp_bind, wp_get,
        wp_bind, wp_modify, wp_pure]
      set s1 : Lfs := { s with
        fs := { s.fs with disk := (s.fs.disk.pwrite fd (io.partPwrite k) part off).2 }
        parts := (part, off) :: s.parts } with hs1
      have h1 : Split path s s1 :=
        .of_same ⟨rfl, fun _ => rfl, rfl, fun _ _ => rfl, rfl, rfl, rfl⟩ rfl rfl rfl rfl
      rw [wp_ite]
      split_ifs
      · refine wp_mono (ih (k + 1) s1) ?_ fun _ _ he => he
        rintro r s' ⟨h2, hf⟩
        exact ⟨h1.trans h2, hf⟩
      · exact ⟨h1, rfl⟩

/-- **`split_write`** counts the write, and changes the backing file and arms a crash fault at
most. -/
theorem wp_splitWrite (hk : (s.crashFaultsAt "after" "write").isSome) (w : Write) (io : TornIo) :
    wp (splitWrite w io)
      (fun _ s' => Split w.path s s' ∧ splitsOf s'.faults
        = Function.update (splitsOf s.faults) w.path.str
          (mapHead (fun f => { f with counter := f.counter + 1 }) (splitsOf s.faults w.path.str)) ∧
        (splitsOf s.faults w.path.str = [] → s'.torn = s.torn)) (fun _ _ => False) s := by
  rw [splitWrite, wp_bind, wp_modify, wp_bind, wp_get]
  -- the counter of the first fault goes up
  set s1 : Lfs := { s with
    faults := mapFaults s.faults w.path.str
      (mapFirstSplit fun f => { f with counter := f.counter + 1 }) } with hs1
  have hseqs : seqsOf s1.faults = seqsOf s.faults := by
    have hsame : ∀ l, (mapFirstSplit (fun f => { f with counter := f.counter + 1 }) l).filterMap
        Fault.seq? = id (l.filterMap Fault.seq?) := seq?_mapFirstSplit
    rw [hs1, seqsOf_mapFaults s.faults w.path.str hsame rfl, id, Function.update_eq_self]
  have hsplits : splitsOf s1.faults = Function.update (splitsOf s.faults) w.path.str
      (mapHead (fun f => { f with counter := f.counter + 1 }) (splitsOf s.faults w.path.str)) :=
    splitsOf_mapFaults s.faults w.path.str split?_mapFirstSplit rfl
  have h1 : Split w.path s s1 := .of_same ⟨rfl, congrFun (clearsOf_mapFaults s.faults w.path.str
    (clear?_mapFirstSplit _)), rfl, fun _ _ => rfl, rfl, rfl, rfl⟩ hseqs rfl rfl rfl
  have hfirst : firstSplit (faultsOf s1.faults w.path.str)
      = (mapHead (fun f => { f with counter := f.counter + 1 })
        (splitsOf s.faults w.path.str)).head? := by
    rw [firstSplit_eq]
    have := congrFun hsplits w.path.str
    rw [Function.update_self] at this
    exact congrArg List.head? this
  rw [hfirst]
  cases hl : splitsOf s.faults w.path.str with
  -- no fault for the path
  | nil =>
      refine ⟨h1, by rw [hsplits, hl], fun _ => ?_⟩
      rw [torn, torn, hseqs]
      rfl
  | cons f l =>
      dsimp only [mapHead, List.head?_cons]
      rw [hl, mapHead] at hsplits
      -- at its occurrence the parts are written, which may fail at any of them
      split_ifs
      · rw [wp_bind, openCreat, wp_bind, wp_get]
        set parts := splitParts { f with counter := f.counter + 1 } w.buf.length w.offset
        have hnone : ∀ s2 : Lfs, Split w.path s s2 → s2.faults = s1.faults →
            Split w.path s s2 ∧ splitsOf s2.faults = Function.update (splitsOf s.faults) w.path.str
              ({ f with counter := f.counter + 1 } :: l) ∧ (False → s2.torn = s.torn) :=
          fun s2 h2 hf2 => ⟨h2, by rw [hf2, hsplits], False.elim⟩
        have hsome : ∀ (fd : Option Fd) (parts : List Part) (s2 : Lfs), Split w.path s s2 →
            s2.faults = s1.faults → wp (do
                  if ← writeParts fd w.buf io parts 0 then do
                    addCrashFault "after" "write" w.path.str "none"
                    pure true
                  else pure false)
              (fun _ s' => Split w.path s s' ∧ splitsOf s'.faults
                = Function.update (splitsOf s.faults)
                w.path.str ({ f with counter := f.counter + 1 } :: l) ∧
                (False → s'.torn = s.torn)) (fun _ _ => False) s2 := by
          intro fd parts s2 h2 hf2
          rw [wp_bind]
          refine wp_mono (wp_writeParts w.path fd w.buf io _ 0 s2) ?_ fun _ _ he => he
          rintro r s3 ⟨h3, hf3⟩
          have h23 := h2.trans h3
          rw [wp_ite]
          split_ifs
          · rw [wp_bind]
            have hk3 : (s3.crashFaultsAt "after" "write").isSome := by rw [h23.only.known, hk]
            refine wp_mono (moves_addCrashFault hk3 w.path) ?_ fun _ _ he => he
            rintro u s4 ⟨-, ht, ho, hs⟩
            rw [wp_pure]
            refine ⟨h23.trans ⟨ho, congrArg TornState.seqs ht, congrArg TornState.pending ht,
              congrArg TornState.persisted ht, 1, ?_⟩, ?_, False.elim⟩
            · rw [ht]
              rfl
            · rw [hs, hf3, hf2, hsplits]
          · exact ⟨h23, by rw [hf3, hf2, hsplits], False.elim⟩
        -- the file is opened first
        cases s1.fs.disk.create w.path { readable := false, writable := true } io.newIno io.now with
        | none =>
            rw [wp_pure]
            cases parts with
            | none => exact hnone s1 h1 rfl
            | some parts => exact hsome none parts s1 h1 rfl
        | some r =>
            rw [wp_bind, wp_modify, wp_pure]
            have h2 := h1.trans (Split.setDisk s1 r.1)
            cases parts with
            | none => exact hnone _ h2 rfl
            | some parts => exact hsome (some r.2) parts _ h2 rfl
      · exact ⟨h1, hsplits, fun h => by cases h⟩

end Lfs

end LazyFS
