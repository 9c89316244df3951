import LazyFS.Hooks.Tearing

/-!
Calls with hooks and the plain file system, where only torn-op faults and crash faults are
registered.

* `Follow`: a program does what a part of the plain file system does and counts its torn writes, or
  is killed on the way; `CutShort` says how: for a crash fault that was registered, or at the first
  write that a torn-op fault tears.
* `Ends`: the body of an operation, which may end in a torn write; `Follow.hookedOwn` puts the hooks
  around it, and `Follow.hooked` around one that ends in none.
* `Call.follow`: every call does what the plain call does, or is killed at one of its stages.
* `Call.followPlain`: the same where only crash faults are registered.
-/

namespace LazyFS

open Program

variable {cfg : Config} {rgx : Rgx} {α β : Type}

/-- The program was killed for a crash fault with the file system in `S`; or at the first of its
torn writes that a fault tears, from a file system in `S`; or it did not find what the plain one did
not find. -/
inductive CutShort (o : Option (FS × α)) (S : FS → Prop) (l : List (Write × Lfs.TornIo)) (s : Lfs) :
    Halt → Lfs → Prop where
  | killed {s' : Lfs} : ¬ s.NoCrash → S s'.fs → CutShort o S l s .killed s'
  | torn {done rest : List (Write × Lfs.TornIo)} {x : Write × Lfs.TornIo}
      {ps : List Lfs.Part} {i : ℕ}
      {fs : FS} {s' : Lfs} : l = done ++ x :: rest →
      NoneDue (faultsOf s.faults) (done.map Prod.fst) →
      dueParts (counted (faultsOf s.faults) (done.map Prod.fst)) x.1 = some ps → S fs →
      fs.disk.ino x.1.path = some i → s'.fs = { fs with disk := fs.disk.tear i x.1 ps } →
      CutShort o S l s .killed s'
  | exception {s' : Lfs} : o = none → CutShort o S l s .exception s'

/-- The program leaves the file system and the result `o` and counts the torn writes `l`, or stops
on the way with the file system in `S`. -/
def Follow (rgx : Rgx) (o : Option (FS × α)) (S : FS → Prop) (l : List (Write × Lfs.TornIo))
    (m : FaultM α) (s : Lfs) : Prop :=
  s.TearOnly → Tearable rgx (faultsOf s.faults) S l →
    wp m (fun a s' => o = some (s'.fs, a) ∧ s.Counts (l.map Prod.fst) s') (CutShort o S l s) s

/-- The body of an operation, with a torn write `own` at its end or without. -/
def Ends (rgx : Rgx) (o : Option (FS × ℤ × Bool)) (S : FS → Prop) (l : List (Write × Lfs.TornIo))
    (own : Option (Write × Lfs.TornIo)) (body : FaultM (ℤ × Bool)) (s : Lfs) : Prop :=
  s.TearOnly → Tearable rgx (faultsOf s.faults) S (l ++ own.toList) →
    wp body (fun r s' => ∃ s1, o = some (s1.fs, r) ∧ s.Counts (l.map Prod.fst) s1 ∧
      match own with
      | none => s' = s1
      | some x => r.2 = true ∧ Tore x s1 s') (CutShort o S l s) s

section

variable {o : Option (FS × α)} {o' : Option (FS × β)} {S : FS → Prop} {s s' : Lfs}
  {l l' : List (Write × Lfs.TornIo)} {e : Halt}

/-- The program stopped before the torn writes that would have followed. -/
lemma CutShort.append (h : CutShort o S l s e s') (hnone : o = none → o' = none)
    (l' : List (Write × Lfs.TornIo)) : CutShort o' S (l ++ l') s e s' := by
  cases h with
  | killed hc hS => exact .killed hc hS
  | @torn done rest x ps i fs _ hl hdone hdue hS hi hfs =>
      have hl' : l ++ l' = done ++ x :: (rest ++ l') := by
        rw [hl, List.append_assoc, List.cons_append]
      exact .torn hl' hdone hdue hS hi hfs
  | exception hn => exact .exception (hnone hn)

/-- The program stopped after some torn writes. -/
lemma CutShort.after {s1 : Lfs} (hcount : s.Counts (l.map Prod.fst) s1)
    (h : CutShort o S l' s1 e s') :
    CutShort o S (l ++ l') s e s' := by
  cases h with
  | killed hc hS => exact .killed (fun hno => hc (hcount.noCrash.mpr hno)) hS
  | torn hl hdone hdue hS hi hfs =>
      rw [hcount.faults] at hdone hdue
      refine .torn (by rw [hl, List.append_assoc]) ?_ ?_ hS hi hfs
      · rw [List.map_append]
        exact hcount.noneDue.append hdone
      · rw [List.map_append, ← counted_counted]
        exact hdue
  | exception hn => exact .exception hn

lemma Tearable.left {faults : String → List Fault} (h : Tearable rgx faults S (l ++ l')) :
    Tearable rgx faults S l := fun x hx => h x (List.mem_append_left l' hx)

lemma Tearable.right {faults : String → List Fault} (h : Tearable rgx faults S (l ++ l'))
    (hcount : s.Counts (l.map Prod.fst) s') (hfaults : faults = faultsOf s.faults) :
    Tearable rgx (faultsOf s'.faults) S l' := by
  rw [hcount.faults, ← hfaults]
  exact Tearable.counted (fun x hx => h x (List.mem_append_right l hx)) _

end

namespace Follow

variable {o : Option (FS × α)} {o' : Option (FS × β)} {S : FS → Prop} {s : Lfs}
  {l l' : List (Write × Lfs.TornIo)}

/-- **Composition.** -/
lemma bind {m : FaultM α} {k : α → FaultM β} (h : Follow rgx o S l m s)
    (hk : ∀ a s', o = some (s'.fs, a) → Follow rgx o' S l' (k a) s')
    (hnone : o = none → o' = none) :
    Follow rgx o' S (l ++ l') (m >>= k) s := by
  intro hs ht
  rw [wp_bind]
  refine wp_mono (h hs ht.left) ?_ fun e s1 he => he.append hnone l'
  rintro a s1 ⟨ho, hcount⟩
  refine wp_mono (hk a s1 ho (hcount.tearOnly hs) (ht.right hcount rfl)) ?_ fun e s2 he =>
    he.after hcount
  rintro b s2 ⟨ho', hcount'⟩
  rw [List.map_append]
  exact ⟨ho', hcount.trans hcount'⟩

/-- Composition with a program without torn writes. -/
lemma step {m : FaultM α} {k : α → FaultM β} (h : Follow rgx o S [] m s)
    (hk : ∀ a s', o = some (s'.fs, a) → Follow rgx o' S l (k a) s') (hnone : o = none → o' = none) :
    Follow rgx o' S l (m >>= k) s := h.bind hk hnone

/-- Composition with a program without torn writes that cannot fail. -/
lemma then' {m : FaultM α} {k : α → FaultM β} {a : α} {fs : FS}
    (h : Follow rgx (some (fs, a)) S [] m s) (hk : ∀ s', s'.fs = fs → Follow rgx o' S l (k a) s') :
    Follow rgx o' S l (m >>= k) s := by
  refine h.step (fun a' s' ho => ?_) fun hn => by cases hn
  obtain ⟨rfl, rfl⟩ := Prod.mk.inj (Option.some.inj ho)
  exact hk s' rfl

lemma ofPure {a : α} : Follow rgx (some (s.fs, a)) S [] (pure a) s :=
  fun _ _ => ⟨rfl, Lfs.counts_nil rfl rfl rfl rfl⟩

lemma ofGet {k : Lfs → FaultM α} (h : Follow rgx o S l (k s) s) :
    Follow rgx o S l (get >>= k) s := by
  intro hs ht
  rw [wp_bind, wp_get]
  exact h hs ht

lemma ofModify {f : Lfs → Lfs} (h : s.TearOnly → s.Counts [] (f s)) :
    Follow rgx (some ((f s).fs, ⟨⟩)) S [] (modify f) s := fun hs _ => ⟨rfl, h hs⟩

/-- A part of an operation without hooks. -/
lemma liftFs {f : FS → Option (FS × α)} : Follow rgx (f s.fs) S [] (Lfs.liftFs f) s := by
  intro _ _
  rw [Lfs.liftFs, wp_ofOption]
  exact ⟨fun fs a h => ⟨h, Lfs.counts_nil rfl rfl rfl rfl⟩, fun h => .exception h⟩

lemma liftBind (f : FS → Option (FS × α)) {k : α → FaultM β} {g : FS × α → Option (FS × β)}
    (hk : ∀ a s', f s.fs = some (s'.fs, a) → Follow rgx (g (s'.fs, a)) S l (k a) s') :
    Follow rgx ((f s.fs).bind g) S l (Lfs.liftFs f >>= k) s := by
  refine liftFs.step (fun a s' ho => ?_) fun hn => by rw [hn, Option.bind_none]
  rw [ho, Option.bind_some]
  exact hk a s' ho

/-- A part of which the program only uses some. -/
lemma liftMap {γ : Type} (f : FS → Option γ) {e : γ → FS × α} {k : α → FaultM β}
    {g : γ → Option (FS × β)}
    (hk : ∀ x s', f s.fs = some x → s'.fs = (e x).1 → Follow rgx (g x) S l (k (e x).2) s') :
    Follow rgx ((f s.fs).bind g) S l (Lfs.liftFs (fun fs => (f fs).map e) >>= k) s := by
  refine liftFs.step (fun a s' ho => ?_) fun hn => ?_
  · obtain ⟨x, hx, he⟩ := Option.map_eq_some_iff.mp ho
    have hfs : s'.fs = (e x).1 := by rw [he]
    obtain rfl : (e x).2 = a := by rw [he]
    rw [hx, Option.bind_some]
    exact hk x s' hx hfs
  · rw [Option.map_eq_none_iff.mp hn, Option.bind_none]

/-- `trigger_crash_fault`. -/
lemma triggerCrashFault {op timing : String} (hop : op ∈ allowCrashFsOperations)
    (fromPath toPath : String) (hS : S s.fs) :
    Follow rgx (some (s.fs, ⟨⟩)) S [] (Lfs.triggerCrashFault rgx op timing fromPath toPath) s := by
  intro hs _
  rw [wp, Lfs.triggerCrashFault_eq]
  obtain ⟨armed, hl⟩ := Option.isSome_iff_exists.mp (hs.known timing op hop)
  rw [hl]
  dsimp only
  split_ifs with hany
  · refine .killed (fun hno => ?_) hS
    rw [hno timing op hop, Option.some.injEq] at hl
    rw [← hl] at hany
    exact Bool.false_ne_true hany
  · exact ⟨rfl, Lfs.counts_nil rfl rfl rfl rfl⟩

/-- `trigger_configured_clear_fault` finds no fault. -/
lemma triggerConfiguredClearFault (op timing fromPath toPath : String) :
    Follow rgx (some (s.fs, ⟨⟩)) S []
    (Lfs.triggerConfiguredClearFault cfg op timing fromPath toPath) s := by
  refine ofGet fun hs ht => ?_
  rw [(hs.splits fromPath).clearFaultLoop]
  exact ofPure hs ht

lemma ends {o : Option (FS × ℤ × Bool)} {body : FaultM (ℤ × Bool)} (h : Follow rgx o S l body s) :
    Ends rgx o S l none body s := by
  intro hs ht
  rw [Option.toList_none, List.append_nil] at ht
  exact wp_mono (h hs ht) (fun r s' hr => ⟨s', hr.1, hr.2, rfl⟩) fun _ _ he => he

end Follow

namespace Ends

variable {o : Option (FS × α)} {o' : Option (FS × ℤ × Bool)} {S : FS → Prop} {s : Lfs}
  {l l' : List (Write × Lfs.TornIo)} {own : Option (Write × Lfs.TornIo)}

lemma bind {m : FaultM α} {k : α → FaultM (ℤ × Bool)} (h : Follow rgx o S l m s)
    (hk : ∀ a s', o = some (s'.fs, a) → Ends rgx o' S l' own (k a) s')
    (hnone : o = none → o' = none) :
    Ends rgx o' S (l ++ l') own (m >>= k) s := by
  intro hs ht
  rw [List.append_assoc] at ht
  rw [wp_bind]
  refine wp_mono (h hs ht.left) ?_ fun e s1 he => he.append hnone l'
  rintro a s1 ⟨ho, hcount⟩
  refine wp_mono (hk a s1 ho (hcount.tearOnly hs) (ht.right hcount rfl)) ?_ fun e s2 he =>
    he.after hcount
  rintro r s2 ⟨s3, ho', hcount', hown⟩
  rw [List.map_append]
  exact ⟨s3, ho', hcount.trans hcount', hown⟩

lemma step {m : FaultM α} {k : α → FaultM (ℤ × Bool)} (h : Follow rgx o S [] m s)
    (hk : ∀ a s', o = some (s'.fs, a) → Ends rgx o' S l own (k a) s')
    (hnone : o = none → o' = none) :
    Ends rgx o' S l own (m >>= k) s := bind h hk hnone

lemma then' {m : FaultM α} {k : α → FaultM (ℤ × Bool)} {a : α} {fs : FS}
    (h : Follow rgx (some (fs, a)) S [] m s)
    (hk : ∀ s', s'.fs = fs → Ends rgx o' S l own (k a) s') :
    Ends rgx o' S l own (m >>= k) s := by
  refine step h (fun a' s' ho => ?_) fun hn => by cases hn
  obtain ⟨rfl, rfl⟩ := Prod.mk.inj (Option.some.inj ho)
  exact hk s' rfl

lemma ofGet {k : Lfs → FaultM (ℤ × Bool)} (h : Ends rgx o' S l own (k s) s) :
    Ends rgx o' S l own (get >>= k) s := by
  intro hs ht
  rw [wp_bind, wp_get]
  exact h hs ht

lemma liftBind (f : FS → Option (FS × α)) {k : α → FaultM (ℤ × Bool)}
    {g : FS × α → Option (FS × ℤ × Bool)}
    (hk : ∀ a s', f s.fs = some (s'.fs, a) → Ends rgx (g (s'.fs, a)) S l own (k a) s') :
    Ends rgx ((f s.fs).bind g) S l own (Lfs.liftFs f >>= k) s := by
  refine step Follow.liftFs (fun a s' ho => ?_) fun hn => by rw [hn, Option.bind_none]
  rw [ho, Option.bind_some]
  exact hk a s' ho

/-- The end of a body that writes. -/
lemma tail (w : Write) (io : Lfs.TornIo) (r : ℤ) (hS : S s.fs) :
    Ends rgx (some (s.fs, r, true)) S [] (some (w, io)) (do
      Lfs.tornWrites w io
      pure (r, true) : FaultM (ℤ × Bool)) s := by
  intro hs ht
  have htore : wp (Lfs.tornWrites w io) (fun _ s' => Tore (w, io) s s') (fun _ _ => False) s :=
    wp_tornWrites_tore (x := (w, io)) hs hS fun f hf => ht (w, io) List.mem_cons_self f hf
  have hcount : s.Counts [] s := Lfs.counts_nil rfl rfl rfl rfl
  rw [wp_bind]
  refine wp_mono htore ?_ fun _ _ he => he.elim
  intro _ s' h
  exact ⟨s, rfl, hcount, rfl, h⟩

/-- The pages that a write changes, and its torn write. -/
lemma writeRest {path : Path} (inode : String) (before : ℕ) (buf : Mem) (size offset : ℕ) (fd : Fd)
    (io : WriteIo) (torn : Lfs.TornIo)
    (hS : ∀ fs r, ((s.fs.writeRest cfg path inode before buf size offset fd io).map fun fs =>
      (fs, FS.writeRes cfg size, true)) = some (fs, r) → S fs) :
    Ends rgx ((s.fs.writeRest cfg path inode before buf size offset fd io).map fun fs =>
        (fs, FS.writeRes cfg size, true)) S [] (some (⟨path, buf.read 0 size, offset⟩, torn)) (do
      Lfs.liftFs fun fs => (fs.writeRest cfg path inode before buf size offset fd io).map (·, ())
      Lfs.tornWrites ⟨path, buf.read 0 size, offset⟩ torn
      pure (FS.writeRes cfg size, true) : FaultM (ℤ × Bool)) s := by
  refine step Follow.liftFs (fun a s' ho => ?_) fun hn => by rw [Option.map_eq_none_iff.mp hn]; rfl
  obtain ⟨fs', hrest, h'⟩ := Option.map_eq_some_iff.mp ho
  obtain ⟨rfl, -⟩ := Prod.mk.inj h'
  rw [hrest, Option.map_some] at hS ⊢
  exact tail _ _ _ (hS _ _ rfl)

end Ends

/-- The crash fault that a torn write arms kills the process after the write. -/
lemma wp_triggerCrashFault_armed {path : Path} {s : Lfs} {armed : List (String × String)}
    (hl : s.crashFaultsAt "after" "write" = some armed) (hmem : armedBy path ∈ armed)
    (hmatch : regexMatch rgx path.str path.str = true) {Q : PUnit → Lfs → Prop} :
    wp (Lfs.triggerCrashFault rgx "write" "after" path.str "") Q (fun e s' =>
      e = .killed ∧ s' = s) s := by
  have hmet : armed.any (Lfs.crashFaultMet rgx "write" path.str "") = true := by
    refine List.any_eq_true.mpr ⟨_, hmem, ?_⟩
    rw [Lfs.crashFaultMet, if_neg (by decide)]
    exact hmatch
  rw [wp, Lfs.triggerCrashFault_eq, hl]
  dsimp only
  rw [if_pos hmet]
  exact ⟨rfl, rfl⟩

/-- The lock does not matter. -/
lemma CutShort.unlock {o : Option (FS × α)} {S : FS → Prop} {l : List (Write × Lfs.TornIo)}
    {s s' : Lfs} {e : Halt} {n : ℕ} (h : CutShort o S l { s with sharedHolds := n } e s') :
    CutShort o S l s e s' := by
  cases h with
  | killed hc hS => exact .killed hc hS
  | torn hl hdone hdue hS hi hfs => exact .torn hl hdone hdue hS hi hfs
  | exception hn => exact .exception hn

/-- What comes after the body of an operation that was not torn. -/
lemma wp_afterBody {opname fromPath toPath afterTiming : String}
    (hop : opname ∈ allowCrashFsOperations) {o : Option (FS × ℤ × Bool)} {S : FS → Prop}
    {l : List (Write × Lfs.TornIo)} {s s3 : Lfs} {res : ℤ} {b : Bool} (hs : s.TearOnly)
    (ho : o = some (s3.fs, res, b)) (hS : S s3.fs)
    (hcount : Lfs.Counts (l.map Prod.fst) { s with sharedHolds := s.sharedHolds + 1 } s3) :
    wp (do
      if b = true then do
        modify fun s : Lfs => { s with trace := .took opname fromPath toPath :: s.trace }
        Lfs.triggerCrashFault rgx opname "after" fromPath toPath
        Lfs.triggerConfiguredClearFault cfg opname afterTiming fromPath toPath
      modify fun s => { s with sharedHolds := s.sharedHolds - 1 }
      pure res : FaultM ℤ)
      (fun a s' => o.map (fun r => (r.1, r.2.1)) = some (s'.fs, a) ∧ s.Counts (l.map Prod.fst) s')
      (CutShort (o.map fun r => (r.1, r.2.1)) S l s) s3 := by
  -- the lock is given back in the end
  have hunlock : ∀ s4 : Lfs, Lfs.Counts [] s3 s4 →
      s.Counts (l.map Prod.fst) { s4 with sharedHolds := s4.sharedHolds - 1 } := by
    intro s4 h4
    have h := hcount.trans_nil h4
    refine ⟨h.faults, h.noneDue, h.crash, ?_⟩
    dsimp only
    rw [h.holds, Nat.add_sub_cancel]
  have hresult : o.map (fun r => (r.1, r.2.1)) = some (s3.fs, res) := by rw [ho]; rfl
  have hs3 : s3.TearOnly := hcount.tearOnly ⟨hs.splits, hs.known⟩
  cases b with
  | false => exact ⟨hresult, hunlock s3 (Lfs.counts_nil rfl rfl rfl rfl)⟩
  | true =>
      rw [if_pos rfl, wp_bind, wp_modify, wp_bind]
      set s4 : Lfs := { s3 with trace := .took opname fromPath toPath :: s3.trace } with hs4
      have h34 : Lfs.Counts [] s3 s4 := Lfs.counts_nil rfl rfl rfl rfl
      have hnone : ∀ s5 : Lfs, Tearable rgx (faultsOf s5.faults) S [] := fun _ x hx =>
        absurd hx List.not_mem_nil
      -- a kill in one of the faults leaves what was done before it
      have hkill : ∀ {s5 : Lfs} {fs : FS} {e : Halt} {s' : Lfs}, Lfs.Counts [] s3 s5 →
          CutShort (some (fs, (⟨⟩ : PUnit))) S [] s5 e s' →
          CutShort (o.map fun r => (r.1, r.2.1)) S l s e s' := by
        intro s5 fs e s' h35 he
        have h1 : CutShort (o.map fun r => (r.1, r.2.1)) S ([] ++ []) s5 e s' :=
          he.append (fun hn => by cases hn) []
        have h2 := h1.after (hcount.trans_nil h35)
        rw [List.append_nil, List.append_nil] at h2
        exact h2.unlock
      -- the crash faults come first, and then the clear faults
      have hcrash : Follow rgx (some (s4.fs, ⟨⟩)) S []
          (Lfs.triggerCrashFault rgx opname "after" fromPath toPath) s4 :=
        Follow.triggerCrashFault hop fromPath toPath hS
      refine wp_mono (hcrash (h34.tearOnly hs3) (hnone s4)) ?_ fun e s' he => hkill h34 he
      rintro a s5 ⟨h5, h45⟩
      have h35 : Lfs.Counts [] s3 s5 := h34.trans h45
      have hclear : Follow rgx (some (s5.fs, ⟨⟩)) S []
          (Lfs.triggerConfiguredClearFault cfg opname afterTiming fromPath toPath) s5 :=
        Follow.triggerConfiguredClearFault opname afterTiming fromPath toPath
      rw [wp_bind]
      refine wp_mono (hclear (h35.tearOnly hs3) (hnone s5)) ?_ fun e s' he => hkill h35 he
      rintro a s6 ⟨h6, h56⟩
      obtain ⟨h5, -⟩ := Prod.mk.inj (Option.some.inj h5)
      obtain ⟨h6, -⟩ := Prod.mk.inj (Option.some.inj h6)
      refine ⟨?_, hunlock s6 (h35.trans h56)⟩
      rw [hresult]
      exact congrArg (fun fs => some (fs, res)) (h5.trans h6)

/-- What comes after a body that ends in a torn write: the crash fault that was armed kills the
process. -/
lemma wp_afterTorn {afterTiming : String} {o : Option (FS × ℤ)} {S : FS → Prop}
    {l : List (Write × Lfs.TornIo)} {x : Write × Lfs.TornIo} {s s0 s3 : Lfs}
    {ps : List Lfs.Part} {i : ℕ} {res : ℤ}
    (ht : Tearable rgx (faultsOf s.faults) S (l ++ [x]))
    (hcount : Lfs.Counts (l.map Prod.fst) { s with sharedHolds := s.sharedHolds + 1 } s0)
    (hS : S s0.fs) (hdue : dueParts (faultsOf s0.faults) x.1 = some ps)
    (hi : s0.fs.disk.ino x.1.path = some i)
    (hfs : s3.fs = { s0.fs with disk := s0.fs.disk.tear i x.1 ps })
    (harmed : ∃ armed, s3.crashFaultsAt "after" "write" = some armed ∧ armedBy x.1.path ∈ armed) :
    wp (do
      if true = true then do
        modify fun s : Lfs => { s with trace := .took "write" x.1.path.str "" :: s.trace }
        Lfs.triggerCrashFault rgx "write" "after" x.1.path.str ""
        Lfs.triggerConfiguredClearFault cfg "write" afterTiming x.1.path.str ""
      modify fun s => { s with sharedHolds := s.sharedHolds - 1 }
      pure res : FaultM ℤ)
      (fun a s' => o = some (s'.fs, a) ∧ s.Counts ((l ++ [x]).map Prod.fst) s')
      (CutShort o S (l ++ [x]) s)
      s3 := by
  obtain ⟨armed, hl, hmem⟩ := harmed
  rw [hcount.faults] at hdue
  rw [if_pos rfl, wp_bind, wp_modify, wp_bind]
  have hfirst : ∃ f, firstSplit (faultsOf s.faults x.1.path.str) = some f := by
    obtain ⟨f, hf, -⟩ := Option.bind_eq_some_iff.mp hdue
    rw [firstSplit_counted] at hf
    obtain ⟨f', hf', -⟩ := Option.map_eq_some_iff.mp hf
    exact ⟨f', hf'⟩
  obtain ⟨f, hf⟩ := hfirst
  have hcan := ht x (List.mem_append_right l List.mem_cons_self) f hf
  set s4 : Lfs := { s3 with trace := .took "write" x.1.path.str "" :: s3.trace } with hs4
  have hl4 : s4.crashFaultsAt "after" "write" = some armed := hl
  refine wp_mono (wp_triggerCrashFault_armed (Q := fun _ _ => False) hl4 hmem hcan.selfMatch)
    (fun _ _ hq => hq.elim) ?_
  rintro e s' ⟨rfl, rfl⟩
  exact .torn rfl hcount.noneDue hdue hS hi hfs

/-- **An operation with its hooks**, from what its body does: a torn write at the end of the body is
the last one, and the hook after it kills the process. -/
lemma Follow.hookedOwn {opname fromPath toPath afterTiming : String}
    (hop : opname ∈ allowCrashFsOperations) {body : FaultM (ℤ × Bool)} {o : Option (FS × ℤ × Bool)}
    {S : FS → Prop} {l : List (Write × Lfs.TornIo)} (own : Option (Write × Lfs.TornIo))
    (hown : ∀ x ∈ own, opname = "write" ∧ fromPath = x.1.path.str ∧ toPath = "") {s : Lfs}
    (hbody : ∀ s1 : Lfs, s1.fs = s.fs → Ends rgx o S l own body s1) (hstart : S s.fs)
    (hend : ∀ fs r, o = some (fs, r) → S fs) :
    Follow rgx (o.map fun r => (r.1, r.2.1)) S (l ++ own.toList)
      (Lfs.hooked cfg rgx opname fromPath toPath afterTiming body) s := by
  rw [Lfs.hooked_eq]
  refine (Follow.triggerCrashFault hop fromPath toPath hstart).then' fun s1 h1 => ?_
  refine (Follow.triggerConfiguredClearFault opname "before" fromPath toPath).then'
    fun s2 h2 hs ht => ?_
  rw [Lfs.underLock, wp_bind, wp_modify, wp_bind]
  have hlocked : ({ s2 with sharedHolds := s2.sharedHolds + 1 } : Lfs).TearOnly :=
    ⟨hs.splits, hs.known⟩
  refine wp_mono (hbody _ (h2.trans h1) hlocked ht) ?_ fun e s3 he =>
    (he.append (fun hn => by rw [hn]; rfl) _).unlock
  rintro ⟨res, b⟩ s3 ⟨s0, ho, hcount, hlast⟩
  have hS : S s0.fs := hend _ _ ho
  cases own with
  | none =>
      obtain rfl : s3 = s0 := hlast
      rw [Option.toList_none, List.append_nil]
      exact wp_afterBody hop hs ho hS hcount
  | some x =>
      obtain ⟨hb, htore⟩ := hlast
      obtain rfl : b = true := hb
      obtain ⟨rfl, rfl, rfl⟩ := hown x rfl
      cases htore with
      | counted hc hfs =>
          rw [← hfs] at ho hS
          refine wp_afterBody hop hs ho hS ?_
          rw [List.map_append]
          exact hcount.trans hc
      | torn hdue hi hfs harmed =>
          exact wp_afterTorn ht hcount hS hdue hi hfs harmed

/-- An operation whose body ends in no torn write. -/
lemma Follow.hooked {opname fromPath toPath afterTiming : String}
    (hop : opname ∈ allowCrashFsOperations) {body : FaultM (ℤ × Bool)} {o : Option (FS × ℤ × Bool)}
    {S : FS → Prop} {l : List (Write × Lfs.TornIo)} {s : Lfs}
    (hbody : ∀ s1 : Lfs, s1.fs = s.fs → Follow rgx o S l body s1) (hstart : S s.fs)
    (hend : ∀ fs r, o = some (fs, r) → S fs) :
    Follow rgx (o.map fun r => (r.1, r.2.1)) S l
      (Lfs.hooked cfg rgx opname fromPath toPath afterTiming body) s := by
  have h : Follow rgx (o.map fun r => (r.1, r.2.1)) S
      (l ++ (none : Option (Write × Lfs.TornIo)).toList)
      (Lfs.hooked cfg rgx opname fromPath toPath afterTiming body) s :=
    Follow.hookedOwn hop none (fun x hx => by cases hx) (fun s1 h1 =>
      (hbody s1 h1).ends) hstart hend
  rw [Option.toList_none, List.append_nil] at h
  exact h

namespace Follow

variable {s : Lfs} {S : FS → Prop} {path : Path}

/-- `lfs_write` with a null handle. -/
lemma writeNull (buf : Mem) (size offset : ℕ) (io : WriteIo) (torn : Lfs.TornIo) (hstart : S s.fs)
    (hend : ∀ fs r, s.fs.lfsWriteNull cfg path buf size offset io = some (fs, r) → S fs) :
    Follow rgx (s.fs.lfsWriteNull cfg path buf size offset io)
      S (s.fs.nullWriteTorn path buf size offset torn)
      (Lfs.lfsWriteNull cfg rgx path buf size offset io torn) s := by
  have hdone : ∀ fs r, s.fs.nullSteps cfg path buf size offset io = some (fs, r) → S fs :=
      fun fs r ho =>
    hend fs r.1 (by rw [← FS.nullSteps_eq, ho]; rfl)
  rw [← FS.nullSteps_eq, nullWriteTorn_eq]
  refine Follow.hookedOwn (by decide) _ (fun x hx => ?_) (fun s1 h1 => Ends.ofGet ?_) hstart hdone
  · split_ifs at hx
    · obtain rfl := Option.some.inj hx
      exact ⟨rfl, rfl, rfl⟩
    · cases hx
  rw [FS.nullSteps, ← h1] at hdone
  rw [FS.nullSteps, ← h1]
  cases hfd : s1.fs.disk.openWrite path with
  | none => exact Follow.ofPure.ends
  | some fd =>
      rw [hfd, Option.elim_some] at hdone
      dsimp only
      rw [Option.elim_some, Option.isSome_some, if_pos rfl]
      refine Ends.liftBind (FS.writeStart cfg · path) fun r s2 hst => ?_
      rw [hst, Option.bind_some] at hdone
      obtain ⟨inode, before⟩ := r
      exact Ends.writeRest inode before buf size offset fd io torn hdone

/-- `lfs_write`. -/
lemma write (buf : Mem) (size offset : ℕ) (fi : Option FileInfo) (io : WritesIo)
    (hS : ∀ fs, WriteStage cfg s.fs path buf size offset fi io fs → S fs) :
    Follow rgx (s.fs.lfsWrite cfg path buf size offset fi io.io io.fillIo) S
      (s.fs.writeTorn cfg path buf size offset io fi)
      (Lfs.lfsWrite cfg rgx path buf size offset fi io) s := by
  cases fi with
  | none => exact writeNull buf size offset io.io io.torn (hS _ .start) fun fs r h => hS _ (.done h)
  | some fi =>
      have hdone : ∀ fs r, s.fs.writeSteps cfg path buf size offset fi io = some (fs, r) → S fs :=
        fun fs r ho => hS _ (.done (r := r.1) (by rw [← FS.writeSteps_eq, ho]; rfl))
      rw [← FS.writeSteps_eq]
      refine Follow.hookedOwn (by decide) (some (⟨path, buf.read 0 size, offset⟩, io.torn))
        (fun x hx => ?_)
        (fun s1 h1 => ?_) (hS _ .start) hdone
      · obtain rfl := Option.some.inj hx
        exact ⟨rfl, rfl, rfl⟩
      rw [← h1] at hS hdone ⊢
      rw [FS.writeSteps] at hdone ⊢
      refine Ends.liftBind (FS.writeStart cfg · path) fun r s2 hst => ?_
      obtain ⟨inode, before⟩ := r
      rw [hst, Option.bind_some] at hdone
      rw [FS.holeTorn, hst]
      dsimp only at hdone ⊢
      -- with `direct_io` the write goes past the cache
      cases hd : fi.directIo with
      | true =>
          simp only [hd, if_true, Option.map_some] at hdone ⊢
          refine Ends.then' (Follow.ofModify fun _ => Lfs.counts_nil rfl rfl rfl rfl) fun s3 h3 =>
            ?_
          dsimp only at h3
          rw [← h3] at hdone ⊢
          exact Ends.tail _ _ _ (hdone _ _ rfl)
      | false =>
          simp only [hd, Bool.false_eq_true, if_false] at hdone ⊢
          have hnd : ∃ f, some fi = some f ∧ f.directIo = false := ⟨fi, rfl, hd⟩
          -- a hole is written with zeros first, under faults of its own
          by_cases hlt : before < offset
          · rw [if_pos hlt] at hdone
            rw [if_pos hlt, if_pos hlt, if_pos hlt]
            have hnull : Follow rgx
                (s2.fs.lfsWriteNull cfg path (fun _ => 0) (offset - before) before io.fillIo) S
                (s2.fs.nullWriteTorn path (fun _ => 0) (offset - before) before io.fillTorn)
                (Lfs.lfsWriteNull cfg rgx path (fun _ => 0) (offset - before) before io.fillIo
                  io.fillTorn) s2 :=
              writeNull (fun _ => 0) (offset - before) before io.fillIo io.fillTorn
                (hS _ (.hole hnd hst hlt)) fun fs r h => hS _ (.filled hnd hst hlt h)
            rw [← List.append_nil (FS.nullWriteTorn _ _ _ _ _ _)]
            refine Ends.bind hnull (fun a s3 ho => ?_) fun hn => ?_
            · rw [ho, Option.map_some, Option.bind_some] at hdone
              rw [ho, Option.map_some, Option.bind_some]
              exact Ends.writeRest inode before buf size offset fi.fh io.io io.torn hdone
            · rw [hn]
              rfl
          · rw [if_neg hlt, Option.bind_some] at hdone
            rw [if_neg hlt, if_neg hlt, if_neg hlt, Option.bind_some]
            exact Ends.writeRest inode before buf size offset fi.fh io.io io.torn hdone

/-- The end of `lfs_truncate`. -/
lemma truncateEnd (inode : String) (n : ℕ) (now : Timespec) :
    Follow rgx (some (s.fs.truncateMeta inode n now,
        if cfg.uninitInt = -1 then (-cfg.errno, false) else (0, true))) S [] (do
      modify fun s => { s with fs := s.fs.truncateMeta inode n now }
      if cfg.uninitInt = -1 then pure (-cfg.errno, false) else pure (0, true) :
      FaultM (ℤ × Bool)) s := by
  refine (Follow.ofModify fun _ => Lfs.counts_nil rfl rfl rfl rfl).then' fun s' h' => ?_
  dsimp only at h'
  rw [← h']
  split_ifs
  · exact Follow.ofPure
  · exact Follow.ofPure

/-- `lfs_truncate`. -/
lemma truncate (n : ℕ) (fi : Option FileInfo) (io : WritesIo)
    (hS : ∀ fs, TruncateStage cfg s.fs path n fi io fs → S fs) :
    Follow rgx (s.fs.lfsTruncate cfg path n fi io.io io.fillIo) S (s.fs.growTorn cfg path n fi io)
      (Lfs.lfsTruncate cfg rgx path n fi io) s := by
  rw [← FS.truncateSteps_eq]
  refine Follow.hooked (by decide) (fun s1 h1 => ?_) (hS _ .start) fun fs r ho =>
    hS _ (.done (r := r.1) (by rw [← FS.truncateSteps_eq, ho]; rfl))
  rw [← h1] at hS ⊢
  rw [FS.truncateSteps, FS.growTorn, FS.truncateTarget]
  -- the file is looked up first
  refine Follow.liftBind (fun fs => (fs.lfsGetattr cfg path).bind fun r =>
    r.1.truncateInode cfg path fi)
    fun inode s2 htarget => ?_
  rw [htarget]
  cases inode with
  | none => exact Follow.ofPure
  | some inode =>
      refine Follow.ofGet ?_
      dsimp only
      set before := ((s2.fs.cache.getContentMetadata inode).map Metadata.size).getD 0 with hbefore
      rw [FS.changeSize]
      -- a file that grows is written with zeros
      by_cases hlt : before < n
      · rw [if_pos hlt, if_pos hlt, if_pos hlt]
        dsimp only
        have hwrite : Follow rgx (s2.fs.lfsWrite cfg path (fun _ => 0) (n - before) before fi io.io
            io.fillIo) S (s2.fs.writeTorn cfg path (fun _ => 0) (n - before) before io fi)
            (Lfs.lfsWrite cfg rgx path (fun _ => 0) (n - before) before fi io) s2 :=
          write (fun _ => 0) (n - before) before fi io fun fs h =>
            hS fs (.grow htarget hbefore hlt h)
        rw [← List.append_nil (FS.writeTorn _ _ _ _ _ _ _ _)]
        refine hwrite.bind (fun res s3 ho => ?_) fun hn => ?_
        · rw [ho, Option.bind_eq_bind, Option.bind_some]
          dsimp only
          by_cases hres : res = (n - before : ℕ)
          · rw [if_neg (not_not.mpr hres), if_neg (not_not.mpr hres), Option.map_some]
            exact truncateEnd _ _ _
          · rw [if_pos hres, if_pos hres, Option.map_some]
            refine (Follow.ofModify fun _ => Lfs.counts_nil rfl rfl rfl rfl).then' fun s4 h4 => ?_
            dsimp only at h4
            rw [← h4]
            exact truncateEnd _ _ _
        · rw [hn]
          rfl
      · -- one that shrinks is cut in the cache
        rw [if_neg hlt, if_neg hlt, if_neg hlt]
        by_cases hgt : n < before
        · rw [if_pos hgt, if_pos hgt]
          refine Follow.liftFs.step (fun a s3 ho => ?_) fun hn => ?_
          · obtain ⟨r, hr, h3⟩ := Option.map_eq_some_iff.mp ho
            obtain ⟨h3, -⟩ := Prod.mk.inj h3
            rw [hr, Option.bind_eq_bind, Option.bind_some, Option.map_some, h3]
            exact truncateEnd _ _ _
          · rw [Option.map_eq_none_iff] at hn
            rw [hn]
            rfl
        · rw [if_neg hgt, if_neg hgt, Option.map_some]
          exact truncateEnd _ _ _

lemma growTorn_zero (fs : FS) (path : Path) (fi : Option FileInfo) (io : WritesIo) :
    fs.growTorn cfg path 0 fi io = [] := by
  rw [FS.growTorn]
  split
  · dsimp only
    rw [if_neg (Nat.not_lt_zero _)]
  · rfl

/-- `lfs_open`. -/
lemma openCall (flags : Disk.OpenFlags) (io : WritesIo)
    (hS : ∀ fs, OpenStage cfg s.fs path flags io fs → S fs) :
    Follow rgx ((s.fs.lfsOpen cfg path flags io.io io.fillIo).map fun r => (r.1, r.2.1)) S []
      (Lfs.lfsOpen cfg rgx path flags io) s := by
  rw [← FS.openSteps_eq]
  refine Follow.hooked (by decide) (fun s1 h1 => Follow.ofGet ?_) (hS _ .start) fun fs r ho => ?_
  · rw [← h1] at hS ⊢
    rw [FS.openSteps]
    cases hfd : s1.fs.openFile path flags with
    | none => exact Follow.ofPure
    | some fd =>
        dsimp only
        refine Follow.liftMap (fun fs => fs.lfsGetattr cfg path) fun r s2 hget h2 => ?_
        obtain ⟨fs2, st⟩ := r
        obtain rfl : s2.fs = fs2 := h2
        by_cases ht : flags.trunc = true
        · rw [if_pos ht, if_pos ht]
          have hcut : Follow rgx (s2.fs.lfsTruncate cfg path 0 (some ⟨fd, false⟩) io.io io.fillIo) S
              (s2.fs.growTorn cfg path 0 (some ⟨fd, false⟩) io)
              (Lfs.lfsTruncate cfg rgx path 0 (some ⟨fd, false⟩) io) s2 :=
            truncate 0 (some ⟨fd, false⟩) io fun fs h => hS fs (.cut hfd ht hget h)
          rw [growTorn_zero] at hcut
          refine hcut.step (fun a s3 ho => ?_) fun hn => ?_
          · rw [ho, Option.map_some, Option.map_some]
            exact Follow.ofPure
          · rw [hn]
            rfl
        · rw [if_neg ht, if_neg ht, Option.map_some]
          exact Follow.ofPure
  · have hopen := congrArg (Option.map fun r => (r.1, r.2.1)) ho
    rw [FS.openSteps_eq, Option.map_some] at hopen
    obtain ⟨⟨fs', r', fd⟩, hfs', heq⟩ := Option.map_eq_some_iff.mp hopen
    obtain ⟨rfl, -⟩ := Prod.mk.inj heq
    exact hS _ (.done hfs')

/-- `lfs_fsync`, which also forgets the write that is held back. -/
lemma fsync (isdatasync : Bool) (io : Engine.SyncIo) (hstart : S s.fs)
    (hend : ∀ fs r, s.fs.lfsFsync cfg path isdatasync io = some (fs, r) → S fs) :
    Follow rgx (s.fs.lfsFsync cfg path isdatasync io) S []
    (Lfs.lfsFsync cfg rgx path isdatasync io) s := by
  rw [← FS.fsyncSteps_eq]
  refine Follow.hooked (by decide) (fun s1 h1 => ?_) hstart fun fs r ho =>
    hend fs r.1 (by rw [← FS.fsyncSteps_eq, ho]; rfl)
  rw [FS.fsyncSteps, ← h1]
  refine Follow.liftMap (fun fs => fs.lfsGetattr cfg path) fun r s2 hget h2 => ?_
  rw [← h2]
  refine (Follow.ofModify fun hs => hs.mapReorder path.str "write" _).then' fun s3 h3 => ?_
  refine (Follow.ofModify fun _ => ?_).then' fun s4 h4 => ?_
  · cases s3.pendingWrite with
    | none => exact Lfs.counts_nil rfl rfl rfl rfl
    | some w =>
        dsimp only
        split_ifs
        · exact Lfs.counts_nil rfl rfl rfl rfl
        · exact Lfs.counts_nil rfl rfl rfl rfl
  · have hfs : s4.fs = s2.fs := by
      rw [h4]
      cases s3.pendingWrite with
      | none => exact h3
      | some w =>
          dsimp only
          split_ifs
          · exact h3
          · exact h3
    rw [← hfs]
    refine Follow.liftFs.step (fun a s5 ho => ?_) fun hn => by rw [hn]; rfl
    rw [ho, Option.map_some]
    exact Follow.ofPure

/-- An operation whose body is one part of the plain file system. -/
lemma plainCall {opname fromPath toPath afterTiming : String}
    (hop : opname ∈ allowCrashFsOperations) {f : FS → Option (FS × ℤ × Bool)} {o : Option (FS × ℤ)}
    (ho : (f s.fs).map (fun r => (r.1, r.2.1)) = o) (hstart : S s.fs)
    (hend : ∀ fs r, o = some (fs, r) → S fs) :
    Follow rgx o S [] (Lfs.hooked cfg rgx opname fromPath toPath afterTiming (Lfs.plainBody f))
      s := by
  rw [← ho]
  refine Follow.hooked hop (fun s1 h1 => ?_) hstart fun fs r hf =>
    hend fs r.1 (by rw [← ho, hf]; rfl)
  rw [← h1]
  exact Follow.liftFs

end Follow

/-- **Every call does what the plain call does** and counts its torn writes, or is killed at one of
its stages. -/
theorem Call.follow (cfg : Config) (rgx : Rgx) (c : Call) (s : Lfs) :
    Follow rgx (c.plain cfg s.fs) (c.Stage cfg s.fs) (c.tornWrites cfg s.fs) (c.run cfg rgx) s := by
  have hstart : s.fs = s.fs ∨ ∃ r, c.plain cfg s.fs = some (s.fs, r) := .inl rfl
  have hend : ∀ fs r, c.plain cfg s.fs = some (fs, r) →
      fs = s.fs ∨ ∃ r, c.plain cfg s.fs = some (fs, r) := fun fs r h => .inr ⟨r, h⟩
  cases c with
  | getattr path =>
      have h : Follow rgx ((s.fs.lfsGetattr cfg path).map fun r => (r.1, (0 : ℤ)))
          (fun fs => fs = s.fs ∨ ∃ r, (Call.getattr path).plain cfg s.fs = some (fs, r)) []
          (Lfs.lfsGetattr cfg path) s := Follow.liftFs
      exact h
  | create path flags newIno now =>
      refine Follow.plainCall (by decide) ?_ hstart hend
      rw [Option.map_map]
      rfl
  | «open» path flags io => exact Follow.openCall flags io fun fs h => h
  | read path buf size offset fi io =>
      refine Follow.plainCall (by decide) ?_ hstart hend
      rw [Option.map_map]
      rfl
  | write path buf size offset fi io =>
    exact Follow.write buf size offset (some fi) io fun fs h => h
  | truncate path n fi io => exact Follow.truncate n fi io fun fs h => h
  | fsync path isdatasync io =>
      refine Follow.fsync isdatasync io hstart hend
  | access path allowed => exact Follow.plainCall (by decide) rfl hstart hend
  | rename resolve source dest => exact Follow.plainCall (by decide) rfl hstart hend
  | link source dest => exact Follow.plainCall (by decide) rfl hstart hend
  | symlink target dest newIno => exact Follow.plainCall (by decide) rfl hstart hend
  | unlink path => exact Follow.plainCall (by decide) rfl hstart hend

/-! ### Only crash faults -/

/-- The program was killed for a crash fault with the file system in `S`, or did not find what the
plain one did not find. -/
inductive Crashed (o : Option (FS × α)) (S : FS → Prop) (s : Lfs) : Halt → Lfs → Prop where
  | killed {s' : Lfs} : ¬ s.NoCrash → S s'.fs → Crashed o S s .killed s'
  | exception {s' : Lfs} : o = none → Crashed o S s .exception s'

/-- **Where only crash faults are registered**, every call does what the plain call does, or is
killed at one of its stages. -/
theorem Call.followPlain (cfg : Config) (rgx : Rgx) (c : Call) {s : Lfs} (hs : s.CrashOnly) :
    wp (c.run cfg rgx) (fun r s' => c.plain cfg s.fs = some (s'.fs, r) ∧ s.Alike s')
      (Crashed (c.plain cfg s.fs) (c.Stage cfg s.fs) s) s := by
  have hnone : Tearable rgx (faultsOf s.faults) (c.Stage cfg s.fs) (c.tornWrites cfg s.fs) := by
    intro x _ f hf
    rw [hs.none] at hf
    cases hf
  refine wp_mono (c.follow cfg rgx s hs.tearOnly hnone) ?_ ?_
  · rintro r s' ⟨hplain, hcount⟩
    exact ⟨hplain, hs.of_counts hcount⟩
  · intro e s' he
    cases he with
    | killed hc hS => exact .killed hc hS
    | torn _ _ hdue _ _ _ =>
        rw [dueParts, firstSplit_counted, hs.none] at hdue
        cases hdue
    | exception hn => exact .exception hn

end LazyFS
