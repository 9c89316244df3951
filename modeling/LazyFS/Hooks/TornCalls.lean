import LazyFS.Hooks.Calls
import LazyFS.Hooks.Torn
import LazyFS.Rep.Names

/-!
The **torn writes** of a program, one after the other.

* `Kept`: a step that leaves the torn-seq and torn-op faults alone; `TornWrite`: one run of
  `persist_write` and `split_write`; `Hit`: a crash fault after a write to a path is met.
* `TornRun`: a list of torn writes, after none of which a crash fault is met.
* `Through`: a program that runs through a list of torn writes, or is killed after one of them;
  `Through.underLock` is a write under the lock.
-/

namespace LazyFS

open Program Lfs

variable {cfg : Config} {rgx : Rgx} {path : String} {s s' s'' : Lfs} {α β : Type}

/-- No clear fault is registered, and no crash fault but those after a write. -/
structure Tame (s : Lfs) : Prop where
  clears : ∀ path, clearsOf s.faults path = []
  before : s.crashFaultsBefore = noCrashFaults
  after : ∀ op ∈ allowCrashFsOperations, op ≠ "write" → s.crashFaultsAt "after" op = some []
  known : (s.crashFaultsAt "after" "write").isSome

/-- A step that leaves names, torn faults and crash faults alone. -/
structure Kept (s s' : Lfs) : Prop where
  names : Disk.SameNames s.fs.disk s'.fs.disk
  seqs : seqsOf s'.faults = seqsOf s.faults
  splits : splitsOf s'.faults = splitsOf s.faults
  pending : s'.pendingWrite = s.pendingWrite
  persisted : s'.persisted = s.persisted
  before : s'.crashFaultsBefore = s.crashFaultsBefore
  after : s'.crashFaultsAfter = s.crashFaultsAfter
  tame : Tame s → Tame s'

/-- One run of `persist_write` and `split_write`. -/
structure TornWrite (w : Write) (io : TornIo) (s s' : Lfs) : Prop where
  only : TornOnly s s'
  seqs : s'.torn.seqs = (s.torn.persist w io).1.seqs
  pending : s'.torn.pending = (s.torn.persist w io).1.pending
  persisted : s'.torn.persisted = (s.torn.persist w io).1.persisted
  armed : ∃ n, s'.torn.armed = (s.torn.persist w io).1.armed ++ List.replicate n (armedBy w.path)
  splits : splitsOf s'.faults = if (s.torn.persist w io).2 then splitsOf s.faults else
    Function.update (splitsOf s.faults) w.path.str
      (mapHead (fun f => { f with counter := f.counter + 1 }) (splitsOf s.faults w.path.str))
  exact : splitsOf s.faults w.path.str = [] → s'.torn = (s.torn.persist w io).1

/-- A crash fault after a write to the path is met. -/
def Hit (rgx : Rgx) (path : String) (s : Lfs) : Prop :=
  s.torn.armed.any (crashFaultMet rgx "write" path "") = true

/-- A list of torn writes with steps between them, after none of which a crash fault is met. -/
inductive TornRun (rgx : Rgx) (path : String) : List (Write × TornIo) → Lfs → Lfs → Prop where
  | nil {s s' : Lfs} : Kept s s' → TornRun rgx path [] s s'
  | cons {w : Write} {io : TornIo} {l : List (Write × TornIo)} {s s1 s2 s' : Lfs} :
      Kept s s1 → TornWrite w io s1 s2 → ¬ Hit rgx path s2 → TornRun rgx path l s2 s' →
      TornRun rgx path ((w, io) :: l) s s'

/-- The process is killed after one of the torn writes, where only torn faults are registered. -/
def TornHalt (rgx : Rgx) (path : String) (l : List (Write × TornIo)) (s : Lfs)
    (e : Halt) (s' : Lfs) : Prop :=
  e = .killed → Tame s → ∃ done w io rest, l = done ++ (w, io) :: rest ∧
    ∃ s1 s2, TornRun rgx path done s s1 ∧ TornWrite w io s1 s2 ∧ Hit rgx path s2 ∧ Kept s2 s'

/-- The table of crash faults has the writes. -/
def Known (s : Lfs) : Prop := (s.crashFaultsAt "after" "write").isSome

/-- The program runs through the torn writes and returns with `R`, or is killed after one of
them. -/
def Through {α : Type} (rgx : Rgx) (path : String) (l : List (Write × TornIo)) (m : FaultM α)
    (R : α → Lfs → Prop) (s : Lfs) : Prop :=
  Known s → wp m (fun a s' => TornRun rgx path l s s' ∧ R a s') (TornHalt rgx path l s) s

lemma sameNames_cleared (cfg : Config) (fs : FS) (n : ℕ) :
    Disk.SameNames fs.disk ((Lfs.cleared cfg)^[n] fs).disk := by
  induction n generalizing fs with
  | zero => exact .refl _
  | succ n ih =>
      have h := ih (Lfs.cleared cfg fs)
      rw [Function.iterate_succ_apply]
      exact h

namespace Kept

lemma refl (s : Lfs) : Kept s s := ⟨.refl _, rfl, rfl, rfl, rfl, rfl, rfl, id⟩

lemma trans (h : Kept s s') (h' : Kept s' s'') : Kept s s'' :=
  ⟨h.names.trans h'.names, h'.seqs.trans h.seqs, h'.splits.trans h.splits,
    h'.pending.trans h.pending, h'.persisted.trans h.persisted, h'.before.trans h.before,
    h'.after.trans h.after, fun ht => h'.tame (h.tame ht)⟩

/-- A change of the file system that keeps its names. -/
lemma setFs {fs : FS} (h : Disk.SameNames s.fs.disk fs.disk) : Kept s { s with fs := fs } :=
  ⟨h, rfl, rfl, rfl, rfl, rfl, rfl, fun ht => ⟨ht.clears, ht.before, ht.after, ht.known⟩⟩

lemma setHolds (n : ℕ) : Kept s { s with sharedHolds := n } :=
  ⟨.refl _, rfl, rfl, rfl, rfl, rfl, rfl, fun ht => ⟨ht.clears, ht.before, ht.after, ht.known⟩⟩

lemma setTrace (l : List Event) : Kept s { s with trace := l } :=
  ⟨.refl _, rfl, rfl, rfl, rfl, rfl, rfl, fun ht => ⟨ht.clears, ht.before, ht.after, ht.known⟩⟩

/-- The hook of the clear faults. -/
lemma hook {h : Hook} {l : List ClearF} (hf : Lfs.Fired cfg h.fromPath l s s')
    (hc : clearsOf s'.faults = h.next (clearsOf s.faults))
    (hall : ∀ path, faultsOf s'.faults path = if path = h.fromPath then
      (faultsOf s.faults path).map h.advanceFault else faultsOf s.faults path) : Kept s s' := by
  have hother : ∀ {γ : Type} (k : Fault → Option γ), (∀ x, k (h.advanceFault x) = k x) → ∀ path,
      (faultsOf s'.faults path).filterMap k = (faultsOf s.faults path).filterMap k := by
    intro γ k hk path
    rw [hall]
    split_ifs
    · rw [List.filterMap_map]
      exact List.filterMap_congr fun x _ => hk x
    · rfl
  refine ⟨?_, ?_, ?_, ?_, ?_, ?_, ?_, fun ht => ⟨fun path => ?_, ?_, ?_, ?_⟩⟩
  · rw [hf.fs]
    exact sameNames_cleared cfg s.fs l.length
  · exact funext (hother Fault.seq? fun x => by cases x <;> rfl)
  · exact funext (hother Fault.split? fun x => by cases x <;> rfl)
  · rw [hf.same]
  · rw [hf.same]
  · rw [hf.same]
  · rw [hf.same]
  · rw [hc, Hook.next, ht.clears path, List.map_nil, ite_self]
  · rw [hf.same]
    exact ht.before
  · rw [hf.same]
    exact ht.after
  · rw [hf.same]
    exact ht.known

/-- The torn writes are the same but for the backing file. -/
lemma torn_eq (h : Kept s s') : s'.torn = { s.torn with disk := s'.fs.disk } := by
  rw [Lfs.torn, Lfs.torn, h.seqs, h.pending, h.persisted, crashFaultsAt, crashFaultsAt, h.after]
  rfl

lemma hit (h : Kept s s') : Hit rgx path s' ↔ Hit rgx path s := by
  rw [Hit, Hit, h.torn_eq]

lemma known (h : Kept s s') (hk : Known s) : Known s' := by
  rw [Known, crashFaultsAt, h.after]
  exact hk

end Kept

namespace TornRun

variable {l l' : List (Write × TornIo)}

lemma of_kept (h : Kept s s') (h' : TornRun rgx path l s' s'') : TornRun rgx path l s s'' := by
  cases h' with
  | nil hk => exact .nil (h.trans hk)
  | cons hk hw hh hr => exact .cons (h.trans hk) hw hh hr

lemma append (h : TornRun rgx path l s s') (h' : TornRun rgx path l' s' s'') :
    TornRun rgx path (l ++ l') s s'' := by
  induction h with
  | nil hk => exact h'.of_kept hk
  | cons hk hw hh _ ih => exact .cons hk hw hh (ih h')

lemma kept (h : TornRun rgx path l s s') (hk : Kept s' s'') : TornRun rgx path l s s'' := by
  have h' : TornRun rgx path (l ++ []) s s'' := h.append (.nil hk)
  rwa [List.append_nil] at h'

end TornRun

lemma TornWrite.tame {w : Write} {io : TornIo} (h : TornWrite w io s s') (ht : Tame s) : Tame s' :=
  ⟨fun path => (h.only.clears path).trans (ht.clears path), h.only.before.trans ht.before,
    fun op hop hne => (h.only.after op hne).trans (ht.after op hop hne), by
      rw [h.only.known, ht.known]⟩

lemma TornRun.tame {l : List (Write × TornIo)} (h : TornRun rgx path l s s') (ht : Tame s) :
    Tame s' := by
  induction h with
  | nil hk => exact hk.tame ht
  | cons hk hw _ _ ih => exact ih (hw.tame (hk.tame ht))

lemma TornRun.known {l : List (Write × TornIo)} (h : TornRun rgx path l s s') (hk : Known s) :
    Known s' := by
  induction h with
  | nil hkept => exact hkept.known hk
  | cons hkept hw _ _ ih => exact ih (hw.only.known.trans (hkept.known hk))

/-- The process is killed later. -/
lemma TornHalt.after {l l' : List (Write × TornIo)} {e : Halt} (h : TornRun rgx path l s s')
    (h' : TornHalt rgx path l' s' e s'') : TornHalt rgx path (l ++ l') s e s'' := by
  intro hkill ht
  obtain ⟨done, w, io, rest, hl, s1, s2, h1, h2, h3, h4⟩ := h' hkill (h.tame ht)
  exact ⟨l ++ done, w, io, rest, by rw [hl, List.append_assoc], s1, s2, h.append h1, h2, h3, h4⟩

lemma TornHalt.of_kept {l : List (Write × TornIo)} {e : Halt} (h : Kept s s')
    (h' : TornHalt rgx path l s' e s'') : TornHalt rgx path l s e s'' := h'.after (.nil h)

lemma TornHalt.append {l : List (Write × TornIo)} (l' : List (Write × TornIo)) {e : Halt}
    (h : TornHalt rgx path l s e s') : TornHalt rgx path (l ++ l') s e s' := by
  intro hkill ht
  obtain ⟨done, w, io, rest, hl, h⟩ := h hkill ht
  exact ⟨done, w, io, rest ++ l', by rw [hl, List.append_assoc, List.cons_append], h⟩

namespace Through

variable {l l' : List (Write × TornIo)}

lemma bind {m : FaultM α} {k : α → FaultM β} {R : α → Lfs → Prop} {Q : β → Lfs → Prop}
    (h : Through rgx path l m R s)
    (hk : ∀ a s', TornRun rgx path l s s' → R a s' → Through rgx path l' (k a) Q s') :
    Through rgx path (l ++ l') (m >>= k) Q s := by
  intro hs
  rw [wp_bind]
  refine wp_mono (h hs) ?_ fun e s' he => he.append l'
  rintro a s' ⟨hr, hR⟩
  refine wp_mono (hk a s' hr hR (hr.known hs)) ?_ fun e s'' he => he.after hr
  rintro b s'' ⟨hr', hQ⟩
  exact ⟨hr.append hr', hQ⟩

/-- Composition with a program without torn writes. -/
lemma step {m : FaultM α} {k : α → FaultM β} {R : α → Lfs → Prop} {Q : β → Lfs → Prop}
    (h : Through rgx path [] m R s)
    (hk : ∀ a s', Kept s s' → R a s' → Through rgx path l (k a) Q s') :
    Through rgx path l (m >>= k) Q s :=
  h.bind fun a s' hr hR => hk a s' (by cases hr; assumption) hR

lemma mono {m : FaultM α} {R R' : α → Lfs → Prop} (h : Through rgx path l m R s)
    (hR : ∀ a s', R a s' → R' a s') : Through rgx path l m R' s := fun hs =>
  wp_mono (h hs) (fun a s' ha => ⟨ha.1, hR a s' ha.2⟩) fun _ _ he => he

lemma modify {f : Lfs → Lfs} (h : Kept s (f s)) :
    Through rgx path [] (modify f) (fun _ s' => s' = f s) s := fun _ => ⟨.nil h, rfl⟩

/-- A part of an operation without hooks. -/
lemma liftFs {f : FS → Option (FS × α)}
    (hf : ∀ fs a, f s.fs = some (fs, a) → Disk.SameNames s.fs.disk fs.disk) :
    Through rgx path [] (Lfs.liftFs f)
      (fun a s' => f s.fs = some (s'.fs, a) ∧ s'.sharedHolds = s.sharedHolds) s := by
  intro _
  rw [Lfs.liftFs, wp_ofOption]
  exact ⟨fun fs a h => ⟨.nil (.setFs (hf fs a h)), h, rfl⟩, fun _ hkill => by cases hkill⟩

/-- The hook of the crash faults, other than after a write. -/
lemma triggerCrashFault {op timing : String} (hop : op ∈ allowCrashFsOperations)
    (ht : timing = "before" ∨ timing = "after") (hne : timing = "after" → op ≠ "write")
    (fromPath toPath : String) :
    Through rgx path [] (Lfs.triggerCrashFault rgx op timing fromPath toPath)
    (fun _ s' => s' = s) s := by
  intro _
  rw [wp, Lfs.triggerCrashFault_eq]
  have htame : Tame s → s.crashFaultsAt timing op = some [] := by
    intro h
    rcases ht with rfl | rfl
    · have hnew := Lfs.crashFaultsAt_new s.fs s.faults "before" hop
      rw [Lfs.crashFaultsAt, if_pos rfl] at hnew ⊢
      rw [h.before]
      exact hnew
    · exact h.after op hop (hne rfl)
  cases hl : s.crashFaultsAt timing op with
  | none => exact fun hkill => by cases hkill
  | some l =>
      dsimp only
      split_ifs with hany
      · intro _ h
        rw [htame h, Option.some.injEq] at hl
        rw [← hl] at hany
        cases hany
      · exact ⟨.nil (.refl s), rfl⟩

/-- The hook of the clear faults. -/
lemma triggerConfiguredClearFault (op timing fromPath toPath : String) :
    Through rgx path [] (Lfs.triggerConfiguredClearFault cfg op timing fromPath toPath)
      (fun _ s' => s'.sharedHolds = s.sharedHolds ∧ (0 < s.sharedHolds → s'.fs = s.fs) ∧
        s'.fs = (Lfs.cleared cfg)^[(Hook.met ⟨op, timing, fromPath, toPath⟩
          (clearsOf s.faults)).length] s.fs) s := by
  intro _
  refine wp_mono (wp_triggerConfiguredClearFault ⟨op, timing, fromPath, toPath⟩ s) ?_ ?_
  · rintro a s' ⟨hf, hc, hall⟩
    refine ⟨.nil (.hook hf hc hall), by rw [hf.same], fun hh => ?_, hf.fs⟩
    have hmet : Hook.met ⟨op, timing, fromPath, toPath⟩ (clearsOf s.faults) = [] := by
      by_contra hne
      exact absurd (hf.free hne) (Nat.pos_iff_ne_zero.mp hh)
    rw [hf.fs, hmet]
    rfl
  · intro e s' he _ ht
    obtain ⟨done, f, hp, -⟩ := he.fires
    rw [Hook.met, ht.clears] at hp
    simp at hp

end Through

/-! ### One torn write -/

/-- **The torn writes of an operation** count it and may arm a crash fault. -/
lemma wp_tornWrites (hk : Known s) (w : Write) (io : TornIo) :
    wp (Lfs.tornWrites w io) (fun _ s' => TornWrite w io s s') (fun _ _ => False) s := by
  rw [Lfs.tornWrites, wp_bind]
  refine wp_mono (moves_persistWrite hk w io) ?_ fun _ _ he => he
  rintro r s1 ⟨rfl, ht, ho, hs⟩
  rw [wp_ite]
  split_ifs with hr
  · exact ⟨ho, by rw [ht], by rw [ht], by rw [ht],
      ⟨0, by rw [ht, List.replicate_zero, List.append_nil]⟩,
      by rw [if_pos hr, hs], fun _ => ht⟩
  · rw [wp_bind]
    refine wp_mono (wp_splitWrite (ho.known.trans hk) w io) ?_ fun _ _ he => he
    rintro r2 s2 ⟨hsplit, hsplits, hexact⟩
    refine ⟨ho.trans hsplit.only, ?_, ?_, ?_, ?_, ?_, fun hnil => ?_⟩
    · rw [← ht]
      exact hsplit.seqs
    · rw [← ht]
      exact hsplit.pending
    · rw [← ht]
      exact hsplit.persisted
    · rw [← ht]
      exact hsplit.armed
    · rw [if_neg hr, hsplits, hs]
    · rw [hexact (by rw [hs, hnil]), ht]

/-- What the body of an operation leaves: the torn writes of the operations inside it, and its own
at the end. -/
def EndsTorn (rgx : Rgx) (path : String) (l : List (Write × TornIo)) (own : Option (Write × TornIo))
    (body : FaultM (ℤ × Bool)) (s : Lfs) : Prop :=
  Known s → wp body (fun r s2 => match own with
    | none => r.2 = false ∧ TornRun rgx path l s s2
    | some x => r.2 = true ∧ ∃ s1, TornRun rgx path l s s1 ∧ TornWrite x.1 x.2 s1 s2)
    (TornHalt rgx path l s) s

namespace EndsTorn

variable {l : List (Write × TornIo)} {own : Option (Write × TornIo)}

lemma bind {l' : List (Write × TornIo)} {m : FaultM α} {k : α → FaultM (ℤ × Bool)}
    {R : α → Lfs → Prop} (h : Through rgx path l m R s)
    (hk : ∀ a s', TornRun rgx path l s s' → R a s' → EndsTorn rgx path l' own (k a) s') :
    EndsTorn rgx path (l ++ l') own (m >>= k) s := by
  intro hs
  rw [wp_bind]
  refine wp_mono (h hs) ?_ fun e s' he => he.append l'
  rintro a s' ⟨hr, hR⟩
  refine wp_mono (hk a s' hr hR (hr.known hs)) ?_ fun e s'' he => he.after hr
  rintro r s2 h2
  cases own with
  | none => exact ⟨h2.1, hr.append h2.2⟩
  | some x =>
      obtain ⟨hres, s1, h1, hw⟩ := h2
      exact ⟨hres, s1, hr.append h1, hw⟩

lemma step {m : FaultM α} {k : α → FaultM (ℤ × Bool)} {R : α → Lfs → Prop}
    (h : Through rgx path [] m R s)
    (hk : ∀ a s', Kept s s' → R a s' → EndsTorn rgx path l own (k a) s') :
    EndsTorn rgx path l own (m >>= k) s :=
  bind h fun a s' hr hR => hk a s' (by cases hr; assumption) hR

lemma liftFs_none {f : FS → Option (FS × α)} {k : α → FaultM (ℤ × Bool)} (h : f s.fs = none) :
    EndsTorn rgx path l own (Lfs.liftFs f >>= k) s := by
  intro _
  rw [wp_bind, Lfs.liftFs, wp_ofOption]
  refine ⟨fun fs a hf => ?_, fun _ hkill => by cases hkill⟩
  rw [h] at hf
  cases hf

/-- The body returns early. -/
lemma early (r : ℤ) : EndsTorn rgx path [] none (pure (r, false)) s :=
  fun _ => ⟨rfl, .nil (.refl s)⟩

/-- The end of a body that writes. -/
lemma tail (w : Write) (io : TornIo) (r : ℤ) :
    EndsTorn rgx path [] (some (w, io)) (do
      Lfs.tornWrites w io
      pure (r, true)) s := by
  intro hs
  rw [wp_bind]
  refine wp_mono (wp_tornWrites hs w io) ?_ fun _ _ he => he.elim
  exact fun _ s' hw => ⟨rfl, s, .nil (.refl s), hw⟩

end EndsTorn

/-- **A write from where it takes the lock**: its own torn write is the last one, and the hook after
it kills the process for a crash fault that is met. -/
lemma Through.underLock {l : List (Write × TornIo)} (own : Option (Write × TornIo))
    {body : FaultM (ℤ × Bool)} (hbody : ∀ s1 : Lfs, s1.fs = s.fs → 0 < s1.sharedHolds →
      EndsTorn rgx path l own body s1) :
    Through rgx path (l ++ own.toList) (Lfs.underLock cfg rgx "write" path "" "after" body)
      (fun _ _ => True) s := by
  intro hs
  rw [Lfs.underLock, wp_bind, wp_modify, wp_bind]
  have hlock : Kept s { s with sharedHolds := s.sharedHolds + 1 } := .setHolds _
  refine wp_mono (hbody { s with sharedHolds := s.sharedHolds + 1 } rfl (Nat.succ_pos _)
    (hlock.known hs)) ?_ fun e s' he => (he.append _).of_kept hlock
  rintro ⟨res, b⟩ s2 h2
  cases own with
  | none =>
      -- the call ended without a write of its own, and takes no hook
      obtain ⟨hb, hr⟩ := h2
      dsimp only at hb ⊢
      rw [hb, if_neg Bool.false_ne_true, Option.toList_none, List.append_nil]
      exact ⟨(hr.of_kept hlock).kept (.setHolds _), trivial⟩
  | some x =>
      -- the write is done, and the fault that it armed may kill the process
      obtain ⟨hb, s1, hr, hw⟩ := h2
      dsimp only at hb ⊢
      rw [hb, if_pos rfl, wp_bind, wp_modify, wp_bind]
      set s3 : Lfs := { s2 with trace := .took "write" path "" :: s2.trace } with hs3
      have h23 : Kept s2 s3 := .setTrace _
      have hrun := hr.of_kept hlock
      rw [wp, Lfs.triggerCrashFault_eq]
      cases hl : s3.crashFaultsAt "after" "write" with
      | none => exact fun hkill => by cases hkill
      | some armed =>
          have hhit : Hit rgx path s2 ↔ armed.any (crashFaultMet rgx "write" path "") = true := by
            rw [← h23.hit, Hit, Lfs.torn, hl]
            rfl
          dsimp only
          split_ifs with hany
          · exact fun _ _ => ⟨l, x.1, x.2, [], rfl, s1, s2, hrun, hw, hhit.mpr hany, h23⟩
          · -- none is met, so the clear faults are next
            have hdone : TornRun rgx path (l ++ [x]) s s3 :=
              hrun.append (.cons (.refl s1) hw (fun hh => hany (hhit.mp hh)) (.nil h23))
            have hafter := (show Through rgx path []
              (Lfs.triggerConfiguredClearFault cfg "write" "after"
              path "") _ s3 from Through.triggerConfiguredClearFault _ _ _ _) (hdone.known hs)
            dsimp only
            rw [wp_bind]
            refine wp_mono hafter ?_ fun e s' he => ?_
            · rintro u s4 ⟨h4, -⟩
              cases h4 with
              | nil hk => exact ⟨(hdone.kept hk).kept (.setHolds _), trivial⟩
            · have he' := he.after hdone
              rwa [List.append_nil] at he'

/-- The file system when an operation takes the lock: each clear fault that its first hook meets has
cleared the cache. -/
def atLock (cfg : Config) (op path : String) (s : Lfs) : FS :=
  (Lfs.cleared cfg)^[(Hook.met ⟨op, "before", path, ""⟩ (clearsOf s.faults)).length] s.fs

/-- What comes before an operation takes the lock; inside another operation it leaves the file
system alone. -/
lemma Through.hooked {l : List (Write × TornIo)} {op : String} (hop : op ∈ allowCrashFsOperations)
    {body : FaultM (ℤ × Bool)}
    (hbody : ∀ s1 : Lfs, s1.fs = atLock cfg op path s → (0 < s.sharedHolds → s1.fs = s.fs) →
      Through rgx path l (Lfs.underLock cfg rgx op path "" "after" body) (fun _ _ => True) s1) :
    Through rgx path l (Lfs.hooked cfg rgx op path "" "after" body) (fun _ _ => True) s := by
  rw [Lfs.hooked_eq]
  refine (Through.triggerCrashFault hop (.inl rfl) (fun h => absurd h (by decide)) path "").step ?_
  rintro a s1 - rfl
  refine (Through.triggerConfiguredClearFault op "before" path "").step ?_
  rintro a s2 - ⟨-, hfs, hcleared⟩
  exact hbody s2 hcleared hfs

end LazyFS
