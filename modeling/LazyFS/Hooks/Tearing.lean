import LazyFS.Hooks.Parts
import LazyFS.Hooks.Plain
import LazyFS.Hooks.TornOps

/-!
**Torn-op faults** over many writes, where no fault but these and crash faults is registered.

* `counted`, `dueParts`, `NoneDue`: the torn-op faults after some writes, the parts of a write whose
  fault is due, and a list of writes none of which is torn.
* `Lfs.TearOnly`: only torn-op faults and crash faults are registered; `Lfs.Counts`: a step that
  counts some writes and tears none.
* `CanTear`: what makes a torn write end in a crash; `Tore`: a write is counted, or torn with a
  crash fault armed that will be met; `wp_tornWrites_tore` says that these are the two ways.
-/

namespace LazyFS

open Program Lfs

variable {rgx : Rgx} {path : String} {l l' : List Write} {w : Write}

/-! ### Lists of torn-op faults -/

/-- All faults are torn-op faults. -/
def OnlySplits (l : List Fault) : Prop := ∀ x ∈ l, ∃ f, x = .splitWrite f

namespace OnlySplits

variable {l : List Fault}

lemma tail {x : Fault} (h : OnlySplits (x :: l)) : OnlySplits l :=
  fun y hy => h y (List.mem_cons_of_mem x hy)

lemma lastReorder (h : OnlySplits l) (op : String) : lastReorder op l = none := by
  induction l with
  | nil => rfl
  | cons x l ih =>
      obtain ⟨f, rfl⟩ := h x List.mem_cons_self
      simp only [LazyFS.lastReorder, ih h.tail]

lemma mapReorder (h : OnlySplits l) (op : String) (g : ReorderF → ReorderF) :
    mapReorder op g l = l := by
  refine (List.map_congr_left fun x hx => ?_).trans (List.map_id l)
  obtain ⟨f, rfl⟩ := h x hx
  rfl

lemma mapFirstSplit (h : OnlySplits l) (g : SplitWriteF → SplitWriteF) :
    OnlySplits (mapFirstSplit g l) := by
  cases l with
  | nil => exact h
  | cons x l =>
      obtain ⟨f, rfl⟩ := h x List.mem_cons_self
      intro y hy
      rcases List.mem_cons.mp hy with rfl | hy
      · exact ⟨g f, rfl⟩
      · exact h.tail y hy

/-- The hook of the clear faults finds none. -/
lemma clearFaultLoop (h : OnlySplits l) (cfg : Config) (op timing fromPath toPath : String) :
    ∀ seen, clearFaultLoop cfg op timing fromPath toPath seen l = pure ⟨⟩ := by
  induction l with
  | nil => exact fun _ => rfl
  | cons x l ih =>
      obtain ⟨f, rfl⟩ := h x List.mem_cons_self
      exact fun seen => ih h.tail _

end OnlySplits

lemma firstSplit_mapFirstSplit (g : SplitWriteF → SplitWriteF) (l : List Fault) :
    firstSplit (mapFirstSplit g l) = (firstSplit l).map g := by
  induction l with
  | nil => rfl
  | cons x l ih =>
      cases x with
      | splitWrite f => rfl
      | reorder f => exact ih
      | clear f => exact ih

lemma mapFirstSplit_mapFirstSplit (g g' : SplitWriteF → SplitWriteF) (l : List Fault) :
    mapFirstSplit g (mapFirstSplit g' l) = mapFirstSplit (g ∘ g') l := by
  induction l with
  | nil => rfl
  | cons x l ih =>
      cases x with
      | splitWrite f => rfl
      | reorder f => exact congrArg (List.cons _) ih
      | clear f => exact congrArg (List.cons _) ih

lemma mapFirstSplit_id (l : List Fault) : mapFirstSplit id l = l := by
  induction l with
  | nil => rfl
  | cons x l ih =>
      cases x with
      | splitWrite f => rfl
      | reorder f => exact congrArg (List.cons _) ih
      | clear f => exact congrArg (List.cons _) ih

/-! ### Counting writes -/

/-- The faults by path when their torn-op faults have counted some writes. -/
def counted (faults : String → List Fault) (l : List Write) : String → List Fault := fun path =>
  mapFirstSplit (fun f => { f with counter := f.counter + l.countP fun w => w.path.str = path })
    (faults path)

/-- The parts of a write that the torn-op fault of its path keeps, if the fault is due. -/
def dueParts (faults : String → List Fault) (w : Write) : Option (List Part) :=
  (firstSplit (faults w.path.str)).bind fun f =>
    if f.counter + 1 = f.occurrence then splitParts f w.buf.length w.offset else none

/-- Of the writes of a list, counted from the first one on, none is torn. -/
def NoneDue (faults : String → List Fault) (l : List Write) : Prop :=
  ∀ done w rest, l = done ++ w :: rest → dueParts (counted faults done) w = none

variable {faults : String → List Fault}

lemma counted_nil (faults : String → List Fault) : counted faults [] = faults := by
  funext path
  have hid : (fun f : SplitWriteF =>
      { f with counter := f.counter + ([] : List Write).countP fun w => w.path.str = path })
        = id := by
    funext f
    simp
  rw [counted, hid, mapFirstSplit_id]

lemma counted_counted (faults : String → List Fault) (l l' : List Write) :
    counted (counted faults l) l' = counted faults (l ++ l') := by
  funext path
  rw [counted, counted, counted, mapFirstSplit_mapFirstSplit]
  refine congrArg (mapFirstSplit · (faults path)) (funext fun f => ?_)
  rw [Function.comp_apply, List.countP_append, Nat.cast_add, add_assoc]

lemma firstSplit_counted (faults : String → List Fault) (l : List Write) (path : String) :
    firstSplit (counted faults l path) = (firstSplit (faults path)).map fun f =>
      { f with counter := f.counter + l.countP fun w => w.path.str = path } :=
  firstSplit_mapFirstSplit _ _

lemma noneDue_nil (faults : String → List Fault) : NoneDue faults [] := fun done w rest h => by
  cases done with
  | nil => cases h
  | cons x done => cases h

lemma noneDue_singleton (h : dueParts faults w = none) : NoneDue faults [w] := by
  intro done w' rest hl
  cases done with
  | nil =>
      obtain ⟨rfl, -⟩ := List.cons.inj hl
      rw [counted_nil]
      exact h
  | cons x done =>
      obtain ⟨-, hl⟩ := List.cons.inj hl
      cases done with
      | nil => cases hl
      | cons x done => cases hl

lemma NoneDue.append (h : NoneDue faults l) (h' : NoneDue (counted faults l) l') :
    NoneDue faults (l ++ l') := by
  intro done w rest hl
  rcases List.append_eq_append_iff.mp hl with ⟨done', rfl, hl'⟩ | ⟨rest', rfl, hl'⟩
  · rw [← counted_counted]
    exact h' done' w rest hl'
  · cases rest' with
    | nil =>
        have hdue := h' [] w rest hl'.symm
        rwa [counted_nil, List.append_nil] at hdue
    | cons w' rest' =>
        obtain ⟨rfl, -⟩ := List.cons.inj hl'
        exact h done w rest' rfl

/-- The fault of a write that is torn, and what it has counted. -/
lemma exists_of_dueParts {ps : List Part} (h : dueParts (counted faults l) w = some ps) :
    ∃ f, firstSplit (faults w.path.str) = some f ∧
      f.counter + (l.countP fun v => v.path.str = w.path.str) + 1 = f.occurrence ∧
      splitParts f w.buf.length w.offset = some ps := by
  obtain ⟨f', hf', hps⟩ := Option.bind_eq_some_iff.mp h
  rw [firstSplit_counted] at hf'
  obtain ⟨f, hf, rfl⟩ := Option.map_eq_some_iff.mp hf'
  split_ifs at hps with hocc
  exact ⟨f, hf, hocc, hps⟩

/-! ### Steps that tear nothing -/

namespace Lfs

variable {s s' s'' : Lfs}

/-- No fault but torn-op faults and crash faults is registered, and the tables of crash faults know
every operation. -/
structure TearOnly (s : Lfs) : Prop where
  splits : ∀ path, OnlySplits (faultsOf s.faults path)
  known : ∀ timing, ∀ op ∈ allowCrashFsOperations, (s.crashFaultsAt timing op).isSome

/-- The crash faults and the lock stay as they are, and the torn-op faults count some writes and
tear none. -/
structure Counts (l : List Write) (s s' : Lfs) : Prop where
  faults : faultsOf s'.faults = counted (faultsOf s.faults) l
  noneDue : NoneDue (faultsOf s.faults) l
  crash : ∀ timing op, s'.crashFaultsAt timing op = s.crashFaultsAt timing op
  holds : s'.sharedHolds = s.sharedHolds

/-- Everything but the faults and the lock may change. -/
lemma counts_nil (h : s'.faults = s.faults) (hb : s'.crashFaultsBefore = s.crashFaultsBefore)
    (ha : s'.crashFaultsAfter = s.crashFaultsAfter) (hh : s'.sharedHolds = s.sharedHolds) :
    Counts [] s s' :=
  ⟨by rw [h, counted_nil], noneDue_nil _,
    fun timing op => by rw [crashFaultsAt, crashFaultsAt, hb, ha], hh⟩

lemma Counts.trans (h : Counts l s s') (h' : Counts l' s' s'') : Counts (l ++ l') s s'' :=
  ⟨by rw [h'.faults, h.faults, counted_counted],
    h.noneDue.append (by rw [← h.faults]; exact h'.noneDue),
    fun timing op => (h'.crash timing op).trans (h.crash timing op), h'.holds.trans h.holds⟩

lemma Counts.trans_nil (h : Counts l s s') (h' : Counts [] s' s'') : Counts l s s'' := by
  have := h.trans h'
  rwa [List.append_nil] at this

lemma Counts.tearOnly (h : Counts l s s') (hs : s.TearOnly) : s'.TearOnly :=
  ⟨fun path => by rw [h.faults]; exact (hs.splits path).mapFirstSplit _,
    fun timing op hop => by rw [h.crash]; exact hs.known timing op hop⟩

lemma Counts.noCrash (h : Counts l s s') : s'.NoCrash ↔ s.NoCrash := by
  simp only [NoCrash, h.crash]

/-- A change of the torn-seq faults, of which there are none. -/
lemma TearOnly.mapReorder (hs : s.TearOnly) (path op : String) (g : ReorderF → ReorderF) :
    Counts [] s { s with faults := mapFaults s.faults path (mapReorder op g) } := by
  refine ⟨?_, noneDue_nil _, fun _ _ => rfl, rfl⟩
  funext p
  rw [counted_nil, faultsOf_mapFaults _ _ _ rfl, (hs.splits path).mapReorder]
  split_ifs with hp
  · rw [hp]
  · rfl

lemma CrashOnly.tearOnly (hs : s.CrashOnly) : s.TearOnly :=
  ⟨fun path x hx => by rw [hs.none] at hx; exact absurd hx List.not_mem_nil, hs.known⟩

lemma CrashOnly.of_counts (hs : s.CrashOnly) (h : Counts l s s') : s.Alike s' :=
  ⟨fun path => by rw [h.faults, counted, hs.none]; rfl, h.crash, h.holds⟩

end Lfs

/-! ### Torn writes -/

/-- The backing files when the parts of a write were sent to the file `i`. -/
def Disk.tear (d : Disk) (i : ℕ) (w : Write) (ps : List Part) : Disk :=
  d.sendParts ⟨i, false, true⟩ (ps.map (Part.sent w.buf))

/-- What makes a torn write end in a crash: the pattern of the crash fault that it arms matches its
own path, and every part is written, in a file that is there wherever `S` holds. -/
structure CanTear (rgx : Rgx) (S : FS → Prop) (x : Write × TornIo) (f : SplitWriteF) : Prop where
  selfMatch : regexMatch rgx x.1.path.str x.1.path.str = true
  full : ∀ k, x.2.partPwrite k = .full
  seeks : ∀ ps, splitParts f x.1.buf.length x.1.offset = some ps → ∀ p ∈ ps, p.Seeks
  there : ∀ fs, S fs → ∃ i, fs.disk.ino x.1.path = some i

/-- All writes of a list can be torn by the faults of their paths. -/
def Tearable (rgx : Rgx) (faults : String → List Fault) (S : FS → Prop)
    (l : List (Write × TornIo)) : Prop :=
  ∀ x ∈ l, ∀ f, firstSplit (faults x.1.path.str) = some f → CanTear rgx S x f

lemma Tearable.counted {S : FS → Prop} {xs : List (Write × TornIo)} (h : Tearable rgx faults S xs)
    (l : List Write) : Tearable rgx (counted faults l) S xs := by
  intro x hx f hf
  rw [firstSplit_counted] at hf
  obtain ⟨f', hf', rfl⟩ := Option.map_eq_some_iff.mp hf
  have hx' := h x hx f' hf'
  exact ⟨hx'.selfMatch, hx'.full, hx'.seeks, hx'.there⟩

/-- **A write that is counted**, or torn with a crash fault armed that its own path meets. -/
inductive Tore (x : Write × TornIo) (s s' : Lfs) : Prop where
  | counted : s.Counts [x.1] s' → s'.fs = s.fs → Tore x s s'
  | torn {ps : List Part} {i : ℕ} : dueParts (faultsOf s.faults) x.1 = some ps →
      s.fs.disk.ino x.1.path = some i → s'.fs = { s.fs with disk := s.fs.disk.tear i x.1 ps } →
      (∃ l, s'.crashFaultsAt "after" "write" = some l ∧ armedBy x.1.path ∈ l) → Tore x s s'

/-- A file that is there is opened as it is. -/
lemma Disk.create_of_ino {d : Disk} {p : Path} {i : ℕ} (h : d.ino p = some i) (newIno : ℕ)
    (now : Timespec) :
    d.create p { readable := false, writable := true } newIno now = some (d, ⟨i, false, true⟩) := by
  rw [Disk.ino] at h
  rw [Disk.create]
  split at h
  · rename_i j hj
    rw [hj]
    obtain rfl := Option.some.inj h
    rfl
  · cases h

/-- The faults when `split_write` has counted the write. -/
lemma faultsOf_countWrite (faults : Faults) (w : Write) :
    faultsOf (mapFaults faults w.path.str (mapFirstSplit fun f =>
      { f with counter := f.counter + 1 }))
      = counted (faultsOf faults) [w] := by
  funext p
  rw [faultsOf_mapFaults _ _ _ rfl, counted]
  split_ifs with hp
  · subst hp
    simp
  · have hid : (fun f : SplitWriteF =>
        { f with counter := f.counter + [w].countP fun w => w.path.str = p }) = id := by
      funext f
      have hp' : ¬ w.path.str = p := fun h => hp h.symm
      simp [hp']
    rw [hid, mapFirstSplit_id]

/-- `split_write` tears the write whose fault is due. -/
lemma wp_splitWrite_torn {s : Lfs} {x : Write × TornIo} {S : FS → Prop} {f : SplitWriteF}
    {ps : List Part} (hs : s.TearOnly) (hS : S s.fs)
    (hf : firstSplit (faultsOf s.faults x.1.path.str) = some f)
    (hocc : f.counter + 1 = f.occurrence) (hps : splitParts f x.1.buf.length x.1.offset = some ps)
    (hcan : CanTear rgx S x f) :
    wp (splitWrite x.1 x.2) (fun _ s' => Tore x s s') (fun _ _ => False) s := by
  obtain ⟨w, io⟩ := x
  have hk : (s.crashFaultsAt "after" "write").isSome := hs.known "after" "write" (by decide)
  obtain ⟨i, hi⟩ := hcan.there s.fs hS
  have hdueAt : Due f w io s.fs.disk ⟨i, false, true⟩ s :=
    ⟨by rw [← hf, firstSplit_eq]; rfl, hocc, Disk.create_of_ino hi _ _, hcan.full, hk⟩
  have hdue : dueParts (faultsOf s.faults) w = some ps := by
    rw [dueParts, hf, Option.bind_some, if_pos hocc]
    exact hps
  refine wp_mono (wp_and (wp_splitWrite_due hdueAt) (wp_splitWrite hk w io)) ?_ fun _ _ he => he.1
  rintro r s' ⟨⟨-, hsome⟩, hsplit, -⟩
  obtain ⟨hr, htear⟩ := hsome ps hps
  have hseeks := hcan.seeks ps hps
  rw [hr.mpr hseeks, attempted_of_seeks hseeks] at htear
  refine .torn hdue hi ?_ ?_
  · calc s'.fs = ⟨s'.fs.cache, s'.fs.disk⟩ := rfl
      _ = { s.fs with disk := s.fs.disk.tear i w ps } := by
        rw [hsplit.only.cache, htear.disk, Disk.tear]
  · obtain ⟨l, hl⟩ := Option.isSome_iff_exists.mp (hsplit.only.known.trans hk)
    have harmed : l = s.torn.armed ++ [armedBy w.path] := by
      have h := htear.armed
      rw [torn, hl] at h
      exact h
    refine ⟨l, hl, ?_⟩
    rw [harmed]
    exact List.mem_append_right _ List.mem_cons_self

/-- `split_write` counts the write, or tears it. -/
lemma wp_splitWrite_tore {s : Lfs} {x : Write × TornIo} {S : FS → Prop}
    (hs : s.TearOnly) (hS : S s.fs)
    (hx : ∀ f, firstSplit (faultsOf s.faults x.1.path.str) = some f → CanTear rgx S x f) :
    wp (splitWrite x.1 x.2) (fun _ s' => Tore x s s') (fun _ _ => False) s := by
  obtain ⟨w, io⟩ := x
  set s1 : Lfs := { s with
    faults := mapFaults s.faults w.path.str
      (mapFirstSplit fun f => { f with counter := f.counter + 1 }) } with hs1
  have hone : faultsOf s1.faults = counted (faultsOf s.faults) [w] := faultsOf_countWrite s.faults w
  have hcount : dueParts (faultsOf s.faults) w = none → s.Counts [w] s1 := fun hdue =>
    ⟨hone, noneDue_singleton hdue, fun _ _ => rfl, rfl⟩
  have hfirst : firstSplit (faultsOf s1.faults w.path.str)
      = (firstSplit (faultsOf s.faults w.path.str)).map fun f =>
        { f with counter := f.counter + 1 } := by
    rw [hone, firstSplit_counted]
    simp
  cases hf : firstSplit (faultsOf s.faults w.path.str) with
  | none =>
      have hdue : dueParts (faultsOf s.faults) w = none := by rw [dueParts, hf]; rfl
      rw [hf, Option.map_none] at hfirst
      rw [splitWrite, wp_bind, wp_modify, wp_bind, wp_get, hfirst, wp_pure]
      exact .counted (hcount hdue) rfl
  | some f =>
      have hdue : dueParts (faultsOf s.faults) w
          = if f.counter + 1 = f.occurrence then splitParts f w.buf.length w.offset else none := by
        rw [dueParts, hf]
        rfl
      rw [hf, Option.map_some] at hfirst
      by_cases hocc : f.counter + 1 = f.occurrence
      · rw [if_pos hocc] at hdue
        have hcan := hx f hf
        cases hps : splitParts f w.buf.length w.offset with
        | none =>
            -- the sizes of the parts do not add up: the file is only opened
            rw [hps] at hdue
            obtain ⟨i, hi⟩ := hcan.there s.fs hS
            have hopens : s1.fs.disk.create w.path { readable := false, writable :=
                true } io.newIno io.now
                = some (s1.fs.disk, ⟨i, false, true⟩) := Disk.create_of_ino hi _ _
            have hnone : splitParts { f with counter := f.counter + 1 } w.buf.length w.offset
                = none := hps
            rw [splitWrite, wp_bind, wp_modify, wp_bind, wp_get, hfirst]
            dsimp only
            rw [if_pos hocc, wp_bind, openCreat, wp_bind, wp_get, hopens]
            dsimp only
            rw [wp_bind, wp_modify, wp_pure, hnone, wp_pure]
            exact .counted (hcount hdue) rfl
        | some ps => exact wp_splitWrite_torn hs hS hf hocc hps hcan
      · rw [if_neg hocc] at hdue
        rw [splitWrite, wp_bind, wp_modify, wp_bind, wp_get, hfirst]
        dsimp only
        rw [if_neg hocc, wp_pure]
        exact .counted (hcount hdue) rfl

/-- **`persist_write` and `split_write`** count the write, or tear it. -/
lemma wp_tornWrites_tore {s : Lfs} {x : Write × TornIo} {S : FS → Prop}
    (hs : s.TearOnly) (hS : S s.fs)
    (hx : ∀ f, firstSplit (faultsOf s.faults x.1.path.str) = some f → CanTear rgx S x f) :
    wp (tornWrites x.1 x.2) (fun _ s' => Tore x s s') (fun _ _ => False) s := by
  rw [tornWrites, wp_bind, persistWrite, wp_bind, getAndUpdateReorderFault, wp_bind,
    wp_modify, wp_bind, wp_get, wp_pure]
  set s1 : Lfs := { s with
    faults := mapFaults s.faults x.1.path.str
      (mapReorder "write" fun f => { f with counter := f.counter + 1 }) } with hs1
  have h1 : s.Counts [] s1 := hs.mapReorder _ _ _
  have hs1' : s1.TearOnly := h1.tearOnly hs
  have hsame : faultsOf s1.faults = faultsOf s.faults := by rw [h1.faults, counted_nil]
  rw [(hs1'.splits _).lastReorder, wp_pure, if_neg Bool.false_ne_true, wp_bind]
  refine wp_mono (wp_splitWrite_tore hs1' hS (by rw [hsame]; exact hx)) ?_ fun _ _ he => he
  intro _ s' htore
  cases htore with
  | counted hc hfs => exact .counted (h1.trans hc) hfs
  | torn hdue hi hfs harmed => exact .torn (by rw [← hsame]; exact hdue) hi hfs harmed

end LazyFS
