import LazyFS.Hooks.Clear

/-!
What a call does under the lock, as its **clear faults** see it.

* `Mark`: a hook, or an operation that took effect; `Mark.Quiet` says that no hook of a list meets a
  fault, and `Mark.nextAll` is what the hooks leave of the counters.
* `Marked`: a program under the lock runs through a list of marks, or stops at one of them;
  `Marked.bind` puts programs together, `Marked.hooked` is an operation inside another.
* `tornWrites`, `underLock`: the parts that all operations share.
-/

namespace LazyFS

open Program

/-- A hook of the clear faults, or an operation that took effect. -/
inductive Mark where
  | hook (h : Hook)
  | took (opname fromPath toPath : String)
  deriving DecidableEq

namespace Mark

/-- The clear faults after the hooks of a list. -/
def nextAll : List Mark → Clears → Clears
  | [], m => m
  | .hook h :: l, m => nextAll l (h.next m)
  | .took _ _ _ :: l, m => nextAll l m

/-- No hook of a list meets a fault. -/
def Quiet : List Mark → Clears → Prop
  | [], _ => True
  | .hook h :: l, m => h.met m = [] ∧ Quiet l (h.next m)
  | .took _ _ _ :: l, m => Quiet l m

/-- An operation that took effect, as an event. -/
def event : Mark → Option Event
  | .hook _ => none
  | .took opname fromPath toPath => some (.took opname fromPath toPath)

/-- The operations of a list that took effect. -/
def tooks (l : List Mark) : List Event := l.filterMap event

/-- The marks at the end of an operation. -/
def ends (opname fromPath toPath afterTiming : String) : List Mark :=
  [.took opname fromPath toPath, .hook ⟨opname, afterTiming, fromPath, toPath⟩]

lemma nextAll_append (l l' : List Mark) (m : Clears) :
    nextAll (l ++ l') m = nextAll l' (nextAll l m) := by
  induction l generalizing m with
  | nil => rfl
  | cons x l ih =>
      cases x with
      | hook h => exact ih _
      | took op p q => exact ih _

lemma quiet_append (l l' : List Mark) (m : Clears) :
    Quiet (l ++ l') m ↔ Quiet l m ∧ Quiet l' (nextAll l m) := by
  induction l generalizing m with
  | nil => rw [List.nil_append, Quiet, nextAll, true_and]
  | cons x l ih =>
      cases x with
      | hook h =>
          rw [List.cons_append, Quiet, ih, Quiet, nextAll, and_assoc]
      | took op p q => exact ih _

lemma tooks_append (l l' : List Mark) : tooks (l ++ l') = tooks l ++ tooks l' :=
  List.filterMap_append

end Mark

open Mark

/-! ### Programs under the lock -/

/-- Only clear faults are registered, and no crash fault. -/
structure Calm (s : Lfs) : Prop where
  clear : ∀ path, ∀ x ∈ faultsOf s.faults path, (Fault.clear? x).isSome
  before : s.crashFaultsBefore = Lfs.noCrashFaults
  after : s.crashFaultsAfter = Lfs.noCrashFaults

/-- The marks were passed without a fault being met. -/
structure Passed (marks : List Mark) (s s' : Lfs) : Prop where
  quiet : Quiet marks (clearsOf s.faults)
  clears : clearsOf s'.faults = nextAll marks (clearsOf s.faults)
  trace : s'.trace = (tooks marks).reverse ++ s.trace
  holds : s'.sharedHolds = s.sharedHolds
  calm : Calm s → Calm s'

/-- How a fault that fires under the lock stops the thread. -/
def ClearF.halt (f : ClearF) : Halt := if f.crash then .killed else .deadlock

lemma Lfs.StopsBy.eq_halt {holds : ℕ} {f : ClearF} {e : Halt} (h : Lfs.StopsBy holds f e) :
    e = f.halt := by
  rw [ClearF.halt]
  cases h with
  | killed hc => rw [if_pos hc]
  | deadlock hc _ => rw [hc, if_neg Bool.false_ne_true]

/-- The program stopped for a reason of its own, or was killed for a crash fault. -/
def Failed (s : Lfs) (e : Halt) : Prop := e = .exception ∨ (e = .killed ∧ ¬ Calm s)

/-- The first fault that a hook meets stopped the thread. -/
structure Caught (h : Hook) (done : List Mark) (s : Lfs) (e : Halt) (s' : Lfs) : Prop where
  fires : ∃ f, (h.met (nextAll done (clearsOf s.faults))).head? = some f ∧ e = f.halt ∧
    s'.trace = .fired h.fromPath f :: ((tooks done).reverse ++ s.trace)

/-- Some of the marks were passed before the program stopped. -/
inductive Stopped (marks : List Mark) (s : Lfs) (e : Halt) (s' : Lfs) : Prop where
  | failed (done rest : List Mark) : marks = done ++ rest → Quiet done (clearsOf s.faults) →
      Failed s e → s'.trace = (tooks done).reverse ++ s.trace → Stopped marks s e s'
  | caught (done : List Mark) (h : Hook) (rest : List Mark) : marks = done ++ .hook h :: rest →
      Quiet done (clearsOf s.faults) → Caught h done s e s' → Stopped marks s e s'

/-- The program runs through the marks and returns with `R`, or stops at one of them. -/
def Marked {α : Type} (marks : List Mark) (m : FaultM α) (R : α → Lfs → Prop) (s : Lfs) : Prop :=
  wp m (fun a s' => Passed marks s s' ∧ R a s') (Stopped marks s) s

variable {cfg : Config} {rgx : Rgx} {s s' s'' : Lfs} {marks marks' : List Mark} {α β : Type}

lemma Passed.refl (s : Lfs) : Passed [] s s := ⟨trivial, rfl, rfl, rfl, id⟩

/-- A change of the file system alone. -/
lemma Passed.setFs (s : Lfs) (fs : FS) : Passed [] s { s with fs := fs } :=
  ⟨trivial, rfl, rfl, rfl, fun hc => ⟨hc.clear, hc.before, hc.after⟩⟩

lemma Passed.trans (h : Passed marks s s') (h' : Passed marks' s' s'') :
    Passed (marks ++ marks') s s'' := by
  refine ⟨?_, ?_, ?_, h'.holds.trans h.holds, fun hc => h'.calm (h.calm hc)⟩
  · rw [quiet_append, ← h.clears]
    exact ⟨h.quiet, h'.quiet⟩
  · rw [h'.clears, h.clears, nextAll_append]
  · rw [h'.trace, h.trace, tooks_append, List.reverse_append, List.append_assoc]

lemma Failed.of_passed {e : Halt} (h : Passed marks s s') (he : Failed s' e) : Failed s e :=
  he.imp_right fun ⟨hk, hc⟩ => ⟨hk, fun hs => hc (h.calm hs)⟩

lemma Stopped.after {e : Halt} (h : Passed marks s s') (h' : Stopped marks' s' e s'') :
    Stopped (marks ++ marks') s e s'' := by
  cases h' with
  | failed done rest hm hq hf ht =>
      refine .failed (marks ++ done) rest (by rw [hm, List.append_assoc]) ?_ (hf.of_passed h) ?_
      · rw [quiet_append, ← h.clears]
        exact ⟨h.quiet, hq⟩
      · rw [ht, h.trace, tooks_append, List.reverse_append, List.append_assoc]
  | caught done g rest hm hq hc =>
      obtain ⟨f, hf, he, ht⟩ := hc.fires
      refine .caught (marks ++ done) g rest (by rw [hm, List.append_assoc]) ?_ ⟨f, ?_, he, ?_⟩
      · rw [quiet_append, ← h.clears]
        exact ⟨h.quiet, hq⟩
      · rw [nextAll_append, ← h.clears]
        exact hf
      · rw [ht, h.trace, tooks_append, List.reverse_append, List.append_assoc]

lemma Stopped.append {e : Halt} (l : List Mark) (h : Stopped marks s e s') :
    Stopped (marks ++ l) s e s' := by
  cases h with
  | failed done rest hm hq hf ht =>
      exact .failed done (rest ++ l) (by rw [hm, List.append_assoc]) hq hf ht
  | caught done g rest hm hq hc =>
      exact .caught done g (rest ++ l) (by rw [hm, List.append_assoc, List.cons_append]) hq hc

/-- Nothing was passed. -/
lemma Stopped.atOnce {e : Halt} (hf : Failed s e) (ht : s'.trace = s.trace) :
    Stopped marks s e s' :=
  .failed [] marks rfl trivial hf ht

/-- A program without marks stops for a reason of its own. -/
lemma Stopped.of_nil {e : Halt} (h : Stopped [] s e s') : Failed s e ∧ s'.trace = s.trace := by
  cases h with
  | failed done rest hm hq hf ht =>
      obtain ⟨rfl, rfl⟩ := List.append_eq_nil_iff.mp hm.symm
      exact ⟨hf, ht⟩
  | caught done g rest hm hq hc => simp at hm

/-- A hook keeps clear faults only. -/
lemma Calm.hook {h : Hook} {l : List ClearF} (hc : Calm s) (hf : Lfs.Fired cfg h.fromPath l s s')
    (hall : ∀ path, faultsOf s'.faults path = if path = h.fromPath then
      (faultsOf s.faults path).map h.advanceFault else faultsOf s.faults path) : Calm s' := by
  refine ⟨fun path x hx => ?_, ?_, ?_⟩
  · rw [hall] at hx
    split_ifs at hx
    · obtain ⟨y, hy, rfl⟩ := List.mem_map.mp hx
      have hy' := hc.clear path y hy
      cases y with
      | clear f => rfl
      | reorder f => cases hy'
      | splitWrite f => cases hy'
    · exact hc.clear path x hx
  · rw [hf.same]
    exact hc.before
  · rw [hf.same]
    exact hc.after

namespace Marked

/-- **Composition**: the marks of two programs, one after the other. -/
lemma bind {m : FaultM α} {k : α → FaultM β} {R : α → Lfs → Prop} {Q : β → Lfs → Prop}
    (h : Marked marks m R s) (hk : ∀ a s', Passed marks s s' → R a s' → Marked marks' (k a) Q s') :
    Marked (marks ++ marks') (m >>= k) Q s := by
  rw [Marked, wp_bind]
  refine wp_mono h ?_ fun e s' he => he.append marks'
  rintro a s' ⟨hp, hR⟩
  refine wp_mono (hk a s' hp hR) ?_ fun e s'' he => he.after hp
  rintro b s'' ⟨hp', hQ⟩
  exact ⟨hp.trans hp', hQ⟩

/-- Composition with a program without marks. -/
lemma step {m : FaultM α} {k : α → FaultM β} {R : α → Lfs → Prop} {Q : β → Lfs → Prop}
    (h : Marked [] m R s) (hk : ∀ a s', Passed [] s s' → R a s' → Marked marks (k a) Q s') :
    Marked marks (m >>= k) Q s := h.bind hk

lemma mono {m : FaultM α} {R R' : α → Lfs → Prop} (h : Marked marks m R s)
    (hR : ∀ a s', R a s' → R' a s') : Marked marks m R' s :=
  wp_mono h (fun a s' ha => ⟨ha.1, hR a s' ha.2⟩) fun _ _ he => he

lemma pure {a : α} {R : α → Lfs → Prop} (h : R a s) : Marked [] (pure a) R s := ⟨.refl s, h⟩

lemma modify {f : Lfs → Lfs} (h : Passed [] s (f s)) :
    Marked [] (modify f) (fun _ s' => s' = f s) s := ⟨h, rfl⟩

/-- A part of an operation without hooks. -/
lemma liftFs {f : FS → Option (FS × α)} :
    Marked [] (Lfs.liftFs f) (fun a s' => f s.fs = some (s'.fs, a)) s := by
  rw [Marked, Lfs.liftFs, wp_ofOption]
  exact ⟨fun fs a h => ⟨⟨trivial, rfl, rfl, rfl, fun hc => ⟨hc.clear, hc.before, hc.after⟩⟩, h⟩,
    fun _ => .atOnce (.inl rfl) rfl⟩

lemma liftFs_none {f : FS → Option (FS × α)} {k : α → FaultM β} {Q : β → Lfs → Prop}
    (h : f s.fs = none) : Marked marks (Lfs.liftFs f >>= k) Q s := by
  rw [Marked, wp_bind, Lfs.liftFs, wp_ofOption]
  refine ⟨fun fs a hf => ?_, fun _ => .atOnce (.inl rfl) rfl⟩
  rw [h] at hf
  cases hf

/-- `trigger_crash_fault`. -/
lemma triggerCrashFault {op timing : String} (hop : op ∈ allowCrashFsOperations)
    (fromPath toPath : String) :
    Marked [] (Lfs.triggerCrashFault rgx op timing fromPath toPath) (fun _ s' => s' = s) s := by
  rw [Marked, wp, Lfs.triggerCrashFault_eq]
  have hcalm : Calm s → s.crashFaultsAt timing op = some [] := by
    intro hc
    have hnew := Lfs.crashFaultsAt_new s.fs s.faults timing hop
    rw [Lfs.crashFaultsAt] at hnew ⊢
    rw [hc.before, hc.after]
    exact hnew
  cases ht : s.crashFaultsAt timing op with
  | none => exact .atOnce (.inl rfl) rfl
  | some l =>
      dsimp only
      split_ifs with hany
      · refine .atOnce (.inr ⟨rfl, fun hc => ?_⟩) rfl
        rw [hcalm hc, Option.some.injEq] at ht
        rw [← ht] at hany
        exact Bool.false_ne_true hany
      · exact ⟨.refl s, rfl⟩

/-- The hook of the clear faults under the lock: a fault that is met stops the thread. -/
lemma triggerConfiguredClearFault {op timing fromPath toPath : String} (hh : 0 < s.sharedHolds) :
    Marked [.hook ⟨op, timing, fromPath, toPath⟩]
      (Lfs.triggerConfiguredClearFault cfg op timing fromPath toPath)
      (fun _ s' => s'.fs = s.fs) s := by
  set h : Hook := ⟨op, timing, fromPath, toPath⟩ with hdef
  refine wp_mono (Lfs.wp_triggerConfiguredClearFault h s) ?_ ?_
  · rintro a s' ⟨hf, hc, hall⟩
    have hmet : h.met (clearsOf s.faults) = [] := by
      by_contra hne
      exact absurd (hf.free hne) (Nat.pos_iff_ne_zero.mp hh)
    have hfs : s'.fs = s.fs := by
      rw [hf.fs, hmet]
      rfl
    refine ⟨⟨⟨hmet, trivial⟩, hc, ?_, ?_, fun hcalm => hcalm.hook hf hall⟩, hfs⟩
    · rw [hf.trace, hmet]
      rfl
    · rw [hf.same]
  · intro e s' he
    obtain ⟨done, f, hp, hd, hfree, hstop, htr⟩ := he.fires
    have hdone : done = [] := by
      by_contra hne
      exact absurd (hfree hne) (Nat.pos_iff_ne_zero.mp hh)
    subst hdone
    refine .caught [] h [] rfl trivial ⟨f, ?_, hstop.eq_halt, htr⟩
    obtain ⟨rest, hrest⟩ := hp
    rw [nextAll, ← hrest]
    rfl

end Marked

/-! ### Torn writes -/

/-- The clear faults, what the call did and the lock stay as they are. -/
structure Silent (s s' : Lfs) : Prop where
  clears : clearsOf s'.faults = clearsOf s.faults
  trace : s'.trace = s.trace
  holds : s'.sharedHolds = s.sharedHolds

/-- The program has no marks, whatever faults are registered; it may throw an exception. -/
def Silently {α : Type} (m : FaultM α) : Prop :=
  ∀ s, wp m (fun _ s' => Silent s s') (fun e s' => e = .exception ∧ s'.trace = s.trace) s

namespace Silently

lemma bind {m : FaultM α} {k : α → FaultM β} (h : Silently m) (hk : ∀ a, Silently (k a)) :
    Silently (m >>= k) := by
  intro s
  rw [wp_bind]
  refine wp_mono (h s) ?_ fun _ _ he => he
  intro a s' hs
  refine wp_mono (hk a s') ?_ fun e s'' he => ⟨he.1, he.2.trans hs.trace⟩
  intro b s'' hs'
  exact ⟨hs'.clears.trans hs.clears, hs'.trace.trans hs.trace, hs'.holds.trans hs.holds⟩

lemma pure (a : α) : Silently (pure a) := fun _ => ⟨rfl, rfl, rfl⟩

lemma throw : Silently (throw .exception : FaultM α) := fun _ => ⟨rfl, rfl⟩

lemma get : Silently get := fun _ => ⟨rfl, rfl, rfl⟩

lemma ite {c : Prop} [Decidable c] {m m' : FaultM α} (h : Silently m) (h' : Silently m') :
    Silently (if c then m else m') := by
  split_ifs
  · exact h
  · exact h'

/-- The faults of a path are changed, but not its clear faults. -/
lemma modifyFaults (path : String) {g : List Fault → List Fault}
    (hg : ∀ l, (g l).filterMap Fault.clear? = l.filterMap Fault.clear?) :
    Silently (modify fun s : Lfs => { s with faults := mapFaults s.faults path g }) :=
  fun s => ⟨clearsOf_mapFaults s.faults path hg, rfl, rfl⟩

lemma modify {f : Lfs → Lfs} (h : ∀ s, Silent s (f s)) : Silently (modify f) := h

end Silently

open Silently Lfs

lemma clear?_mapReorder (op : String) (g : ReorderF → ReorderF) (l : List Fault) :
    (mapReorder op g l).filterMap Fault.clear? = l.filterMap Fault.clear? := by
  induction l with
  | nil => rfl
  | cons x l ih =>
      rw [mapReorder, List.map_cons, List.filterMap_cons, List.filterMap_cons, ← mapReorder, ih]
      cases x with
      | reorder f => dsimp only; split_ifs <;> rfl
      | splitWrite f => rfl
      | clear f => rfl

lemma clear?_mapLastReorder (op : String) (g : ReorderF → ReorderF) (l : List Fault) :
    (mapLastReorder op g l).filterMap Fault.clear? = l.filterMap Fault.clear? := by
  induction l with
  | nil => rfl
  | cons x l ih =>
      have hx : ∀ l', l'.filterMap Fault.clear? = l.filterMap Fault.clear? →
          (x :: l').filterMap Fault.clear? = (x :: l).filterMap Fault.clear? := by
        intro l' hl
        rw [List.filterMap_cons, List.filterMap_cons, hl]
      unfold mapLastReorder
      split
      · exact hx _ ih
      · split_ifs
        · rfl
        · rfl
      · rfl

lemma clear?_mapFirstSplit (g : SplitWriteF → SplitWriteF) (l : List Fault) :
    (mapFirstSplit g l).filterMap Fault.clear? = l.filterMap Fault.clear? := by
  induction l with
  | nil => rfl
  | cons x l ih =>
      cases x with
      | splitWrite f => rfl
      | reorder f => exact ih
      | clear f => exact congrArg (f :: ·) ih

lemma silently_addCrashFault (timing op fromRgx toRgx : String) :
    Silently (addCrashFault timing op fromRgx toRgx) := by
  rw [addCrashFault]
  refine .bind .get fun s => .ite (.ite .throw ?_) (.ite .throw ?_)
  · exact .modify fun s => ⟨rfl, rfl, rfl⟩
  · exact .modify fun s => ⟨rfl, rfl, rfl⟩

lemma silently_openCreat (path : Path) (io : TornIo) : Silently (openCreat path io) := by
  refine .bind .get fun s => ?_
  split
  · exact .pure _
  · exact .bind (.modify fun s => ⟨rfl, rfl, rfl⟩) fun _ => .pure _

lemma silently_backingPwrite (fd : Option Fd) (fate : Fate) (buf : List UInt8) (offset : ℤ) :
    Silently (backingPwrite fd fate buf offset) :=
  .bind .get fun _ => .bind (.modify fun _ => ⟨rfl, rfl, rfl⟩) fun _ => .pure _

lemma silently_sendWrite (w : Write) (fate : Fate) (io : TornIo) : Silently (sendWrite w fate io) :=
  .bind (silently_openCreat _ _) fun _ => .bind (.modify fun _ => ⟨rfl, rfl, rfl⟩) fun _ =>
    silently_backingPwrite _ _ _ _

lemma silently_resolvePending (path : String) (fault : ReorderF) (io : TornIo) :
    Silently (resolvePending path fault io) := by
  refine .bind .get fun s => ?_
  split
  · exact .pure _
  · rename_i w _
    have hrest : ∀ sent : Bool, Silently (if sent = true ∧ fault.persist.length = 1 then do
        addCrashFault "after" "write" path "none"
        pure true
      else do
        modify fun s => { s with pendingWrite := none }
        pure false : FaultM Bool) := by
      intro sent
      split_ifs
      · exact .bind (silently_addCrashFault _ _ _ _) fun _ => .pure _
      · exact .bind (.modify fun _ => ⟨rfl, rfl, rfl⟩) fun _ => .pure _
    dsimp only
    split_ifs
    · exact .bind (silently_sendWrite _ _ _) hrest
    · exact .bind (.pure _) hrest

lemma silently_persistOwn (fault : ReorderF) (w : Write) (io : TornIo) :
    Silently (persistOwn fault w io) := by
  rw [persistOwn]
  split_ifs
  · exact .bind (.modify fun _ => ⟨rfl, rfl, rfl⟩) fun _ => .pure _
  · refine .bind (silently_sendWrite _ _ _) fun sent => ?_
    split_ifs
    · exact .bind (silently_addCrashFault _ _ _ _) fun _ => .pure _
    · exact .pure _
  · exact .pure _
  · exact .pure _

lemma silently_persistWrite (w : Write) (io : TornIo) : Silently (persistWrite w io) := by
  refine .bind (.bind (.modifyFaults _ (clear?_mapReorder _ _)) fun _ =>
    .bind .get fun _ => .pure _)
    fun r => ?_
  split
  · exact .pure _
  · refine .bind (.ite ?_ (.pure _)) fun fault =>
      .bind (silently_resolvePending _ _ _) fun stays => ?_
    · exact .bind (.modifyFaults _ (clear?_mapLastReorder _ _)) fun _ => .pure _
    · split_ifs
      · exact .pure _
      · exact silently_persistOwn _ _ _

lemma silently_writeParts (fd : Option Fd) (buf : List UInt8) (io : TornIo) (l : List Part) :
    ∀ k, Silently (writeParts fd buf io l k) := by
  induction l with
  | nil => exact fun k => .pure _
  | cons p l ih =>
      refine fun k => .bind (.modify fun _ => ⟨rfl, rfl, rfl⟩) fun _ =>
        .bind (silently_backingPwrite _ _ _ _) fun sent => ?_
      split_ifs
      · exact ih _
      · exact .pure _

lemma silently_splitWrite (w : Write) (io : TornIo) : Silently (splitWrite w io) := by
  refine .bind (.modifyFaults _ (clear?_mapFirstSplit _)) fun _ => .bind .get fun s => ?_
  split
  · exact .pure _
  · refine .ite (.bind (silently_openCreat _ _) fun fd => ?_) (.pure _)
    split
    · exact .pure _
    · refine .bind (silently_writeParts _ _ _ _ _) fun sent => ?_
      split_ifs
      · exact .bind (silently_addCrashFault _ _ _ _) fun _ => .pure _
      · exact .pure _

lemma silently_tornWrites (w : Write) (io : TornIo) : Silently (tornWrites w io) :=
  .bind (silently_persistWrite _ _) fun added => .ite (c := added = true) (.pure _)
    (.bind (silently_splitWrite _ _) fun _ => .pure _)

/-! ### Torn writes among clear faults only -/

/-- No torn-seq fault among clear faults. -/
lemma lastReorder_of_clear (op : String) {l : List Fault} (h : ∀ x ∈ l, (Fault.clear? x).isSome) :
    lastReorder op l = none := by
  induction l with
  | nil => rfl
  | cons x l ih =>
      have hx := h x List.mem_cons_self
      have hl := ih fun y hy => h y (List.mem_cons_of_mem _ hy)
      unfold lastReorder
      rw [hl]
      cases x with
      | clear f => rfl
      | reorder f => cases hx
      | splitWrite f => cases hx

/-- No torn-op fault among clear faults. -/
lemma firstSplit_of_clear {l : List Fault} (h : ∀ x ∈ l, (Fault.clear? x).isSome) :
    firstSplit l = none := by
  induction l with
  | nil => rfl
  | cons x l ih =>
      have hx := h x List.mem_cons_self
      have hl := ih fun y hy => h y (List.mem_cons_of_mem _ hy)
      cases x with
      | clear f => exact hl
      | reorder f => cases hx
      | splitWrite f => cases hx

/-- The faults of a path are changed by a function that keeps clear faults only. -/
lemma Calm.mapFaults (h : Calm s) (path : String) {g : List Fault → List Fault}
    (hg : ∀ l : List Fault, (∀ x ∈ l, (Fault.clear? x).isSome) →
      ∀ x ∈ g l, (Fault.clear? x).isSome) :
    Calm { s with faults := LazyFS.mapFaults s.faults path g } := by
  refine ⟨fun p x hx => ?_, h.before, h.after⟩
  rw [faultsOf, LazyFS.mapFaults, Map.lookup_update] at hx
  split_ifs at hx with hp
  · have hcl := h.clear path
    rw [faultsOf] at hcl
    cases hl : s.faults.lookup path with
    | none =>
        rw [hl] at hx
        cases hx
    | some l =>
        rw [hl] at hx hcl
        exact hg l hcl x hx
  · exact h.clear p x hx

lemma Calm.mapReorder (h : Calm s) (path op : String) (g : ReorderF → ReorderF) :
    Calm { s with faults := LazyFS.mapFaults s.faults path (LazyFS.mapReorder op g) } := by
  refine h.mapFaults path fun l hl x hx => ?_
  obtain ⟨y, hy, rfl⟩ := List.mem_map.mp hx
  have hy' := hl y hy
  cases y with
  | clear f => rfl
  | reorder f => cases hy'
  | splitWrite f => cases hy'

/-- Torn writes do nothing where only clear faults are registered. -/
lemma Calm.tornWrites (h : Calm s) (w : Write) (io : TornIo) :
    wp (tornWrites w io) (fun _ s' => Calm s') (fun e _ => e = .exception) s := by
  rw [Lfs.tornWrites, wp_bind, persistWrite, wp_bind, getAndUpdateReorderFault, wp_bind, wp_modify,
    wp_bind, wp_get, wp_pure]
  have h1 := h.mapReorder w.path.str "write" fun f => { f with counter := f.counter + 1 }
  rw [lastReorder_of_clear "write" (h1.clear w.path.str), wp_pure]
  rw [if_neg Bool.false_ne_true, wp_bind, splitWrite, wp_bind, wp_modify, wp_bind, wp_get]
  have h2 := h1.mapFaults w.path.str
    (g := mapFirstSplit fun f => { f with counter := f.counter + 1 }) fun l hl => by
      induction l with
      | nil => exact fun x hx => absurd hx List.not_mem_nil
      | cons y l ih =>
          have hy := hl y List.mem_cons_self
          cases y with
          | clear f =>
              intro x hx
              rcases List.mem_cons.mp hx with rfl | hx
              · rfl
              · exact ih (fun z hz => hl z (List.mem_cons_of_mem _ hz)) x hx
          | reorder f => cases hy
          | splitWrite f => cases hy
  rw [firstSplit_of_clear (h2.clear w.path.str), wp_pure, wp_pure]
  exact h2

/-- The torn writes of an operation have no marks. -/
lemma Marked.tornWrites (w : Write) (io : TornIo) :
    Marked [] (Lfs.tornWrites w io) (fun _ _ => True) s := by
  by_cases hc : Calm s
  · refine wp_mono (wp_and (silently_tornWrites w io s) (hc.tornWrites w io)) ?_ ?_
    · rintro a s' ⟨hs, hc'⟩
      exact ⟨⟨trivial, hs.clears, hs.trace, hs.holds, fun _ => hc'⟩, trivial⟩
    · rintro e s' ⟨⟨rfl, ht⟩, -⟩
      exact .atOnce (.inl rfl) ht
  · refine wp_mono (silently_tornWrites w io s) ?_ ?_
    · intro a s' hs
      exact ⟨⟨trivial, hs.clears, hs.trace, hs.holds, fun h => absurd h hc⟩, trivial⟩
    · rintro e s' ⟨rfl, ht⟩
      exact .atOnce (.inl rfl) ht

/-! ### Operations -/

/-- An operation from where it takes the lock. -/
def Lfs.underLock (cfg : Config) (rgx : Rgx) (opname fromPath toPath afterTiming : String)
    (body : FaultM (ℤ × Bool)) : FaultM ℤ := do
  modify fun s => { s with sharedHolds := s.sharedHolds + 1 }
  let (res, reachesEnd) ← body
  if reachesEnd then do
    modify fun s => { s with trace := .took opname fromPath toPath :: s.trace }
    triggerCrashFault rgx opname "after" fromPath toPath
    triggerConfiguredClearFault cfg opname afterTiming fromPath toPath
  modify fun s => { s with sharedHolds := s.sharedHolds - 1 }
  pure res

lemma Lfs.hooked_eq (opname fromPath toPath afterTiming : String) (body : FaultM (ℤ × Bool)) :
    hooked cfg rgx opname fromPath toPath afterTiming body = (do
      triggerCrashFault rgx opname "before" fromPath toPath
      triggerConfiguredClearFault cfg opname "before" fromPath toPath
      underLock cfg rgx opname fromPath toPath afterTiming body) := rfl

variable {opname fromPath toPath afterTiming : String} {body : FaultM (ℤ × Bool)}

/-- The lock is given back. -/
lemma Passed.unlock (h : Passed marks { s with sharedHolds := s.sharedHolds + 1 } s') :
    Passed marks s { s' with sharedHolds := s'.sharedHolds - 1 } := by
  refine ⟨h.quiet, h.clears, h.trace, ?_, fun hc => ?_⟩
  · dsimp only
    rw [h.holds, Nat.add_sub_cancel]
  · have hc' := h.calm ⟨hc.clear, hc.before, hc.after⟩
    exact ⟨hc'.clear, hc'.before, hc'.after⟩

lemma Stopped.unlock {e : Halt}
    (h : Stopped marks { s with sharedHolds := s.sharedHolds + 1 } e s') :
    Stopped marks s e s' := by
  cases h with
  | failed done rest hm hq hf ht =>
      refine .failed done rest hm hq (hf.imp_right fun ⟨hk, hc⟩ => ⟨hk, fun hs => hc ?_⟩) ht
      exact ⟨hs.clear, hs.before, hs.after⟩
  | caught done g rest hm hq hc => exact .caught done g rest hm hq ⟨hc.fires⟩

/-- **An operation from where it takes the lock**: the marks of its body, and those at its end when
the body reaches it. -/
lemma marked_underLock (hop : opname ∈ allowCrashFsOperations) {reachesEnd : Bool}
    (hbody : ∀ s1 : Lfs, s1.fs = s.fs → 0 < s1.sharedHolds →
      Marked marks body (fun r _ => r.2 = reachesEnd) s1) :
    Marked (marks ++ if reachesEnd then ends opname fromPath toPath afterTiming else [])
      (Lfs.underLock cfg rgx opname fromPath toPath afterTiming body) (fun _ _ => True) s := by
  rw [Marked, Lfs.underLock, wp_bind, wp_modify, wp_bind]
  refine wp_mono (hbody { s with sharedHolds := s.sharedHolds + 1 } rfl (Nat.succ_pos _)) ?_
    fun e s' he => (he.append _).unlock
  rintro ⟨res, b⟩ s2 ⟨hp, hr⟩
  dsimp only at hr
  subst hr
  -- the hooks at the end run under the shared lock
  have hpos : 0 < s2.sharedHolds := by
    rw [hp.holds]
    exact Nat.succ_pos _
  cases b with
  | false =>
      dsimp only
      rw [if_neg Bool.false_ne_true, if_neg Bool.false_ne_true, List.append_nil]
      exact ⟨hp.unlock, trivial⟩
  | true =>
      dsimp only
      rw [if_pos rfl, if_pos rfl, wp_bind, wp_modify, wp_bind]
      set s3 : Lfs := { s2 with trace := .took opname fromPath toPath :: s2.trace } with hs3
      have hp3 : Passed (marks ++ [.took opname fromPath toPath])
          { s with sharedHolds := s.sharedHolds + 1 } s3 :=
        hp.trans ⟨trivial, rfl, rfl, rfl, fun hc => ⟨hc.clear, hc.before, hc.after⟩⟩
      have hl : marks ++ ends opname fromPath toPath afterTiming
          = (marks ++ [.took opname fromPath toPath]) ++
            [.hook ⟨opname, afterTiming, fromPath, toPath⟩] := by
        rw [List.append_assoc]
        rfl
      -- the hook of the crash faults leaves no mark
      rw [hl]
      refine wp_mono (Marked.triggerCrashFault hop fromPath toPath) ?_ fun e s' he => ?_
      · rintro a s4 ⟨-, rfl⟩
        rw [wp_bind]
        refine wp_mono (Marked.triggerConfiguredClearFault hpos) ?_
          fun e s' he => (he.after hp3).unlock
        rintro a s5 ⟨hp5, -⟩
        exact ⟨(hp3.trans hp5).unlock, trivial⟩
      · exact ((he.append _).after hp3).unlock

/-- **An operation inside another one.** -/
lemma marked_hooked (hop : opname ∈ allowCrashFsOperations) (hh : 0 < s.sharedHolds)
    {reachesEnd : Bool} (hbody : ∀ s1 : Lfs, s1.fs = s.fs → 0 < s1.sharedHolds →
      Marked marks body (fun r _ => r.2 = reachesEnd) s1) :
    Marked (.hook ⟨opname, "before", fromPath, toPath⟩ ::
        (marks ++ if reachesEnd then ends opname fromPath toPath afterTiming else []))
      (Lfs.hooked cfg rgx opname fromPath toPath afterTiming body) (fun _ _ => True) s := by
  rw [Lfs.hooked_eq]
  refine (Marked.triggerCrashFault hop fromPath toPath).bind fun _ s1 hp1 h1 => ?_
  subst h1
  refine (Marked.triggerConfiguredClearFault hh).bind fun _ s2 hp2 h2 => ?_
  exact marked_underLock hop fun s3 h3 hpos => hbody s3 (h3.trans h2) hpos

end LazyFS
