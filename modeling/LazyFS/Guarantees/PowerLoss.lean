import LazyFS.Guarantees.CrashConsistency
import LazyFS.Guarantees.Transparent
import LazyFS.Hooks.Stages
import LazyFS.Hooks.TornFiles

/-!
**A crash fault is a power failure**: wherever the process is killed, the files that a new mount
shows are those that were synced.

* `FileOp.hooked`: a call of an application with its hooks, or a clear through the FIFO.
* `FileOp.stage`: a call that is killed has not touched a backing file, or is over.
* `Survives`: a new mount over a disk shows what the first calls of a list have synced.
* `CrashState.Beside.hooked`: one call steps along, or is killed with what was synced and, for a
  torn-op fault, the parts of one write.
* `killed_survives`: calls with hooks run along those without, or are killed with what was synced.
-/

namespace LazyFS

open Engine Program

variable {cfg : Config} {rgx : Rgx}

/-! ### Calls with hooks -/

/-- The call that the file system gets. -/
def FileOp.call? : FileOp → Option Call
  | getattr path => some (.getattr path)
  | read path buf size offset fi io => some (.read path buf size offset fi io)
  | write path buf size offset fi io fillIo =>
      some (.write path buf size offset fi { io := io, fillIo := fillIo })
  | truncate path n fi io fillIo => some (.truncate path n fi { io := io, fillIo := fillIo })
  | fsync path isdatasync io => some (.fsync path isdatasync io)
  | clear => none

/-- A call with its hooks, or a clear through the FIFO. -/
def FileOp.hooked (cfg : Config) (rgx : Rgx) (op : FileOp) : FaultM PUnit :=
  match op.call? with
  | some c => do
      let _ ← c.run cfg rgx
      pure ⟨⟩
  | none => Lfs.commandFaultClearCache cfg

/-- The call does to the file system what the operation does. -/
lemma FileOp.plain_call (cfg : Config) {op : FileOp} {c : Call} (hc : op.call? = some c) (fs : FS) :
    (c.plain cfg fs).map Prod.fst = (op.run cfg fs).map Prod.fst := by
  cases op with
  | getattr path =>
      obtain rfl := Option.some.inj hc
      rw [Call.plain, FileOp.run, Option.map_map, Option.map_map]
      rfl
  | read path buf size offset fi io =>
      obtain rfl := Option.some.inj hc
      rw [Call.plain, FileOp.run, Option.map_map, Option.map_map]
      rfl
  | write path buf size offset fi io fillIo =>
      obtain rfl := Option.some.inj hc
      rw [Call.plain, FileOp.run, Option.map_map]
      rfl
  | truncate path n fi io fillIo =>
      obtain rfl := Option.some.inj hc
      rw [Call.plain, FileOp.run, Option.map_map]
      rfl
  | fsync path isdatasync io =>
      obtain rfl := Option.some.inj hc
      rw [Call.plain, FileOp.run, Option.map_map]
      rfl
  | clear => cases hc

lemma FileOp.run_of_plain {op : FileOp} {c : Call} (hc : op.call? = some c) {fs fs' : FS} {r : ℤ}
    (h : c.plain cfg fs = some (fs', r)) : ∃ res, op.run cfg fs = some (fs', res) := by
  have hmap := FileOp.plain_call cfg hc fs
  rw [h, Option.map_some] at hmap
  obtain ⟨⟨fs'', res⟩, hr', heq⟩ := Option.map_eq_some_iff.mp hmap.symm
  obtain rfl : fs'' = fs' := heq
  exact ⟨res, hr'⟩

/-- **A call that is killed** has not touched a backing file, or is over. -/
lemma FileOp.stage (h : OnePage cfg) (hlru : cfg.applyLruEviction = false) {fs fs' : FS}
    {c : ℕ → List UInt8} (hk : FS.Keeps cfg fs c) {op : FileOp} (hop : op.Proper cfg fs)
    (hroom : op.Roomy cfg fs) {call : Call} (hc : op.call? = some call)
    (hst : call.Stage cfg fs fs') :
    FS.SameBacking fs fs' ∨ ∃ res, op.run cfg fs = some (fs', res) := by
  cases op with
  | write path buf size offset fi io fillIo =>
      obtain rfl := Option.some.inj hc
      exact .inl (WriteStage.sameBacking h hlru hk hop hroom hst)
  | truncate path n fi io fillIo =>
      obtain rfl := Option.some.inj hc
      exact .inl (TruncateStage.sameBacking h hlru hk hop hroom hst)
  | clear => cases hc
  | getattr | read | fsync =>
      obtain rfl := Option.some.inj hc
      rcases hst with rfl | ⟨r, hr⟩
      · exact .inl (.refl _)
      · exact .inr (FileOp.run_of_plain rfl hr)

/-! ### Torn writes -/

/-- The torn writes of a call. -/
def FileOp.tornWrites (cfg : Config) (fs : FS) (op : FileOp) : List (Write × Lfs.TornIo) :=
  match op.call? with
  | some c => c.tornWrites cfg fs
  | none => []

/-- The torn-op faults can tear the writes of a call: the pattern of the crash fault that is armed
matches its own path, and the parts lie in the write. -/
def FileOp.CanTear (cfg : Config) (rgx : Rgx) (faults : String → List Fault)
    (fs : FS) (op : FileOp) : Prop :=
  ∀ x ∈ op.tornWrites cfg fs, ∀ f, firstSplit (faults x.1.path.str) = some f →
    regexMatch rgx x.1.path.str x.1.path.str = true ∧
      ∀ ps, Lfs.splitParts f x.1.buf.length x.1.offset = some ps → ∀ p ∈ ps, p.Inside x.1

/-- The torn writes of a call are inside its file, and no backing call of theirs fails. -/
lemma FileOp.Proper.torn {fs : FS} {op : FileOp} (hop : op.Proper cfg fs) {x : Write × Lfs.TornIo}
    (hx : x ∈ op.tornWrites cfg fs) : (∃ i, fs.disk.ino x.1.path = some i) ∧
      x.1.offset + x.1.buf.length ≤ maxSize cfg.ioBlockSize ∧ ∀ k, x.2.partPwrite k = .full := by
  have hio : ∀ {path : Path} {n : ℕ} {io fillIo : WriteIo},
      TornOf path n { io := io, fillIo := fillIo } x → ∀ k, x.2.partPwrite k = .full := by
    intro path n io fillIo h k
    rcases h.io with hx' | hx' <;> rw [hx']
  cases op with
  | write path buf size offset fi io fillIo =>
      obtain ⟨i, hi, -, hlen, -⟩ := hop
      have hx1 : x ∈ fs.writeTorn cfg path buf size offset { io := io, fillIo :=
          fillIo } (some fi) := hx
      have hx' := mem_writeTorn hx1
      exact ⟨⟨i, by rw [hx'.path]; exact hi⟩, hx'.stop.trans hlen, hio hx'⟩
  | truncate path n fi io fillIo =>
      obtain ⟨i, hi, -, hlen, -⟩ := hop
      have hx' := mem_growTorn hx
      exact ⟨⟨i, by rw [hx'.path]; exact hi⟩, hx'.stop.trans hlen, hio hx'⟩
  | getattr | read | fsync | clear => cases hx

/-- A call that is killed at a torn write has not touched a backing file before it. -/
lemma FileOp.stage_torn (h : OnePage cfg) (hlru : cfg.applyLruEviction = false) {fs fs' : FS}
    {c : ℕ → List UInt8} (hk : FS.Keeps cfg fs c) {op : FileOp} (hop : op.Proper cfg fs)
    (hroom : op.Roomy cfg fs) {call : Call} (hc : op.call? = some call)
    (hst : call.Stage cfg fs fs') {x : Write × Lfs.TornIo} (hx : x ∈ call.tornWrites cfg fs) :
    FS.SameBacking fs fs' := by
  cases op with
  | write path buf size offset fi io fillIo =>
      obtain rfl := Option.some.inj hc
      exact WriteStage.sameBacking h hlru hk hop hroom hst
  | truncate path n fi io fillIo =>
      obtain rfl := Option.some.inj hc
      exact TruncateStage.sameBacking h hlru hk hop hroom hst
  | clear => cases hc
  | getattr | read | fsync =>
      obtain rfl := Option.some.inj hc
      cases hx

/-! ### Runs -/

/-- A new mount over the disk `d'` shows the files of `d` as the calls `ops` have left them
synced. -/
def Survives (cfg : Config) (d : Disk) (ops : List FileOp) (d' : Disk) : Prop :=
  ∃ t, Runs.run (CrashState.step cfg) (.start cfg d) ops = some t ∧
    ∀ path i, d.ino path = some i → FS.Displays cfg ⟨.new cfg, d'⟩ path i (t.synced i)

/-- The state of a run without hooks beside that of the run with them, which has counted the torn
writes `log`. -/
structure CrashState.Beside (cfg : Config) (d : Disk) (s : Lfs) (t : CrashState) (log : List Write)
    (s' : Lfs) : Prop where
  inv : t.Inv cfg
  names : Disk.SameNames d t.fs.disk
  fs : s'.fs = t.fs
  counts : s.Counts log s'

/-- The disk of a call that is killed for a crash fault. -/
structure CrashState.Left (cfg : Config) (d : Disk) (t : CrashState) (op : FileOp)
    (d' : Disk) : Prop where
  names : Disk.SameNames d d'
  bytes : d'.bytes = t.synced ∨ ∃ t', t.step cfg op = some t' ∧ t'.Inv cfg ∧ d'.bytes = t'.synced

/-- The disk of a call that is killed for a torn-op fault at its torn write `x`, the first one that
is due. -/
structure CrashState.LeftTorn (cfg : Config) (d : Disk) (faults : String → List Fault)
    (t : CrashState) (log : List Write) (op : FileOp) (x : Write × Lfs.TornIo) (ps : List Lfs.Part)
    (i : ℕ) (d' : Disk) : Prop where
  names : Disk.SameNames d d'
  first : ∃ done rest, op.tornWrites cfg t.fs = done ++ x :: rest ∧
    NoneDue faults (log ++ done.map Prod.fst) ∧
    dueParts (counted faults (log ++ done.map Prod.fst)) x.1 = some ps
  file : d.ino x.1.path = some i
  bytes : d'.bytes = Function.update t.synced i (x.1.onto ps (t.synced i))
  length_le : (x.1.onto ps (t.synced i)).length ≤ maxSize cfg.ioBlockSize

namespace CrashState.Beside

variable {d : Disk} {s s1 : Lfs} {t : CrashState} {log : List Write} {op : FileOp} {call : Call}

/-- The call without hooks. -/
lemma stepPlain (h : OnePage cfg) (hlru : cfg.applyLruEviction = false)
    (ht : t.Beside cfg d s log s1) (hop : op.Proper cfg t.fs) (hroom : op.Roomy cfg t.fs) :
    ∃ t' res, t.step cfg op = some t' ∧ t'.Inv cfg ∧ op.run cfg t.fs = some (t'.fs, res) ∧
      Disk.SameNames t.fs.disk t'.fs.disk := by
  obtain ⟨t', hstep, hinv⟩ := ht.inv.step h hlru hop hroom
  obtain ⟨fs', res, hrun, hnames, -⟩ := ht.inv.keeps.run h op hop fun _ => hroom
  obtain rfl : t'.fs = fs' := by
    rw [CrashState.step, hrun, Option.map_some, Option.some.injEq] at hstep
    rw [← hstep]
  exact ⟨t', res, hstep, hinv, hrun, hnames⟩

/-- The torn writes of the call end in a crash. -/
lemma tearable (h : OnePage cfg) (hlru : cfg.applyLruEviction = false)
    (ht : t.Beside cfg d s log s1) (hop : op.Proper cfg t.fs) (hroom : op.Roomy cfg t.fs)
    (htear : op.CanTear cfg rgx (faultsOf s.faults) t.fs) (hc : op.call? = some call) :
    Tearable rgx (faultsOf s1.faults) (call.Stage cfg s1.fs) (call.tornWrites cfg s1.fs) := by
  have htorn : op.tornWrites cfg t.fs = call.tornWrites cfg t.fs := by rw [FileOp.tornWrites, hc]
  obtain ⟨t', res, -, -, hrun, hnames⟩ := ht.stepPlain h hlru hop hroom
  have hthere : ∀ fs, call.Stage cfg t.fs fs → Disk.SameNames t.fs.disk fs.disk := by
    intro fs hS
    rcases FileOp.stage h hlru ht.inv.keeps hop hroom hc hS with hsame | ⟨res', hrun'⟩
    · exact hsame.names
    · rw [hrun, Option.some.injEq, Prod.mk.injEq] at hrun'
      rw [← hrun'.1]
      exact hnames
  rw [ht.counts.faults, ht.fs]
  refine Tearable.counted (fun x hx f hf => ?_) log
  rw [← htorn] at hx
  obtain ⟨⟨i, hi⟩, -, hfull⟩ := hop.torn hx
  obtain ⟨hself, hin⟩ := htear x hx f hf
  exact ⟨hself, hfull, fun ps hps p hp => (hin ps hps p hp).seeks,
    fun fs hS => ⟨i, ((hthere fs hS).ino _).trans hi⟩⟩

/-- A call that was killed for a crash fault. -/
lemma left (h : OnePage cfg) (hlru : cfg.applyLruEviction = false) (ht : t.Beside cfg d s log s1)
    (hop : op.Proper cfg t.fs) (hroom : op.Roomy cfg t.fs) (hc : op.call? = some call) {fs : FS}
    (hS : call.Stage cfg t.fs fs) : t.Left cfg d op fs.disk := by
  rcases FileOp.stage h hlru ht.inv.keeps hop hroom hc hS with hsame | ⟨res', hrun'⟩
  · exact ⟨ht.names.trans hsame.names, .inl (hsame.bytes.trans (funext ht.inv.disk))⟩
  · obtain ⟨t', res, hstep, hinv, hrun, hnames⟩ := ht.stepPlain h hlru hop hroom
    rw [hrun, Option.some.injEq, Prod.mk.injEq] at hrun'
    rw [← hrun'.1]
    exact ⟨ht.names.trans hnames, .inr ⟨t', hstep, hinv, funext hinv.disk⟩⟩

/-- A call that was killed at a torn write. -/
lemma leftTorn (h : OnePage cfg) (hlru : cfg.applyLruEviction = false)
    (ht : t.Beside cfg d s log s1) (hop : op.Proper cfg t.fs) (hroom : op.Roomy cfg t.fs)
    (htear : op.CanTear cfg rgx (faultsOf s.faults) t.fs) (hc : op.call? = some call)
    {done rest : List (Write × Lfs.TornIo)} {x : Write × Lfs.TornIo} {ps : List Lfs.Part}
    {i : ℕ} {fs : FS} (hl : op.tornWrites cfg t.fs = done ++ x :: rest)
    (hdone : NoneDue (counted (faultsOf s.faults) log) (done.map Prod.fst))
    (hdue : dueParts (counted (faultsOf s.faults) (log ++ done.map Prod.fst)) x.1 = some ps)
    (hS : call.Stage cfg t.fs fs) (hi : fs.disk.ino x.1.path = some i) :
    t.LeftTorn cfg d (faultsOf s.faults) log op x ps i (fs.disk.tear i x.1 ps) := by
  have hx : x ∈ op.tornWrites cfg t.fs := by
    rw [hl]
    exact List.mem_append_right done List.mem_cons_self
  have hx' : x ∈ call.tornWrites cfg t.fs := by
    rw [FileOp.tornWrites, hc] at hx
    exact hx
  have hsame := FileOp.stage_torn h hlru ht.inv.keeps hop hroom hc hS hx'
  have hbytes : fs.disk.bytes = t.synced := hsame.bytes.trans (funext ht.inv.disk)
  have hnames : Disk.SameNames d fs.disk := ht.names.trans hsame.names
  obtain ⟨f, hf, -, hps⟩ := exists_of_dueParts hdue
  obtain ⟨-, hlen, -⟩ := hop.torn hx
  have hin := (htear x hx f hf).2 ps hps
  refine ⟨hnames.trans (Disk.sameNames_tear _ _ _ _),
    ⟨done, rest, hl, ht.counts.noneDue.append hdone, hdue⟩, (hnames.ino _).symm.trans hi, ?_, ?_⟩
  · rw [Disk.bytes_tear fun p hp => (hin p hp).seeks, hbytes]
  · refine Write.length_onto_le ?_ hlen hin
    rw [← ht.inv.disk]
    exact (ht.inv.keeps.file i).disk_le

/-- A clear through the FIFO, which no call holds up. -/
lemma clear (h : OnePage cfg) (hlru : cfg.applyLruEviction = false) (ht : t.Beside cfg d s log s1)
    (hlock : s.sharedHolds = 0) {Q : Halt → Lfs → Prop} :
    wp (Lfs.commandFaultClearCache cfg)
      (fun _ s2 => ∃ t', t.step cfg .clear = some t' ∧ t'.Beside cfg d s (log ++ []) s2) Q s1 := by
  have hop : FileOp.clear.Proper cfg t.fs := trivial
  obtain ⟨t', res, hstep, hinv, hrun, hnames⟩ := ht.stepPlain h hlru hop trivial
  have hfree : ¬ 0 < s1.sharedHolds := by
    rw [ht.counts.holds, hlock]
    exact lt_irrefl 0
  rw [Lfs.commandFaultClearCache, wp_bind, wp_get, if_neg hfree, wp_modify]
  refine ⟨t', hstep, hinv, ht.names.trans hnames, ?_,
    ht.counts.trans (Lfs.counts_nil rfl rfl rfl rfl)⟩
  obtain ⟨hfs, -⟩ := Prod.mk.inj (Option.some.inj hrun)
  rw [← hfs, ht.fs]
  rfl

/-- **One call**: it steps along and counts its torn writes, or is killed for a crash fault with the
files as they were synced before or after it, or for a torn-op fault with the parts of one write in
its file. -/
lemma hooked (h : OnePage cfg) (hlru : cfg.applyLruEviction = false) (hs : s.TearOnly)
    (hlock : s.sharedHolds = 0) (ht : t.Beside cfg d s log s1) (hop : op.Proper cfg t.fs)
    (hroom : op.Roomy cfg t.fs) (htear : op.CanTear cfg rgx (faultsOf s.faults) t.fs) :
    wp (op.hooked cfg rgx) (fun _ s2 => ∃ t', t.step cfg op = some t' ∧
        t'.Beside cfg d s (log ++ (op.tornWrites cfg t.fs).map Prod.fst) s2)
      (fun e s2 => e = .killed ∧ (¬ s.NoCrash ∧ t.Left cfg d op s2.fs.disk ∨
        ∃ x ps i, t.LeftTorn cfg d (faultsOf s.faults) log op x ps i s2.fs.disk)) s1 := by
  rw [FileOp.hooked]
  cases hc : op.call? with
  | some call =>
      have htorn : op.tornWrites cfg t.fs = call.tornWrites cfg t.fs := by
        rw [FileOp.tornWrites, hc]
      -- the plain call goes through; the one under hooks follows it
      obtain ⟨t', res, hstep, hinv, hrun, hnames⟩ := ht.stepPlain h hlru hop hroom
      dsimp only
      rw [wp_bind]
      refine wp_mono (call.follow cfg rgx s1 (ht.counts.tearOnly hs)
        (ht.tearable h hlru hop hroom htear hc)) ?_ ?_
      · rintro r s2 ⟨hplain, hcount⟩
        rw [ht.fs] at hplain hcount
        obtain ⟨res', hrun'⟩ := FileOp.run_of_plain hc hplain
        rw [hrun, Option.some.injEq, Prod.mk.injEq] at hrun'
        rw [htorn]
        exact ⟨t', hstep, hinv, ht.names.trans hnames, hrun'.1.symm, ht.counts.trans hcount⟩
      · intro e s2 he
        -- a kill at a stage of the call, or after a torn write; an exception it does not have
        cases he with
        | killed hno hS =>
            rw [ht.fs] at hS
            exact ⟨rfl, .inl ⟨fun hn => hno (ht.counts.noCrash.mpr hn),
              ht.left h hlru hop hroom hc hS⟩⟩
        | @torn done rest x ps i fs _ hl hdone hdue hS hi hfs =>
            rw [ht.fs] at hS hl
            rw [ht.counts.faults] at hdone hdue
            rw [counted_counted] at hdue
            refine ⟨rfl, .inr ⟨x, ps, i, ?_⟩⟩
            rw [hfs]
            exact ht.leftTorn h hlru hop hroom htear hc (htorn.trans hl) hdone hdue hS hi
        | exception hn =>
            have hmap := FileOp.plain_call cfg hc t.fs
            rw [← ht.fs, hn, ht.fs, hrun] at hmap
            cases hmap
  | none =>
      -- clearing has no hooks
      obtain rfl : op = .clear := by
        cases op with
        | clear => rfl
        | getattr | read | write | truncate | fsync => cases hc
      exact ht.clear h hlru hlock

end CrashState.Beside

/-- A disk shows its files when it is mounted. -/
lemma displays_of_bytes (h : OnePage cfg) {d d' : Disk} {c : ℕ → List UInt8}
    (hlen : ∀ i, (c i).length ≤ maxSize cfg.ioBlockSize) (hnames : Disk.SameNames d d')
    (hbytes : d'.bytes = c) {path : Path} {i : ℕ} (hi : d.ino path = some i) :
    FS.Displays cfg ⟨.new cfg, d'⟩ path i (c i) := by
  rw [← hbytes] at hlen ⊢
  refine FS.Shows.displays (FS.shows_new h d' fun i => .bare (hlen i)) h.pos
    ((hnames.ino path).trans hi) ?_
  exact FileView.clamped_bare

/-- A disk that holds what was synced shows it when it is mounted. -/
lemma survives_of_bytes (h : OnePage cfg) {d d' : Disk} {ops : List FileOp} {t : CrashState}
    (hrun : Runs.run (CrashState.step cfg) (.start cfg d) ops = some t) (hinv : t.Inv cfg)
    (hnames : Disk.SameNames d d') (hbytes : d'.bytes = t.synced) : Survives cfg d ops d' := by
  refine ⟨t, hrun, fun path i hi => displays_of_bytes h (fun j => ?_) hnames hbytes hi⟩
  rw [← hinv.disk]
  exact (hinv.keeps.file j).disk_le

/-- The disk of a run whose calls returned. -/
lemma CrashState.Beside.survives (h : OnePage cfg) {d : Disk} {s s' : Lfs} {t : CrashState}
    {log : List Write} {ops : List FileOp}
    (hrun : Runs.run (CrashState.step cfg) (.start cfg d) ops = some t)
    (ht : t.Beside cfg d s log s') : Survives cfg d ops s'.fs.disk := by
  rw [ht.fs]
  exact survives_of_bytes h hrun ht.inv ht.names (funext ht.inv.disk)

/-- The disk of a call that was killed for a crash fault. -/
lemma CrashState.Left.survives (h : OnePage cfg) {d d' : Disk} {t : CrashState} {done : List FileOp}
    {op : FileOp} (hinv : t.Inv cfg)
    (hrun : Runs.run (CrashState.step cfg) (.start cfg d) done = some t)
    (hleft : t.Left cfg d op d') :
    Survives cfg d done d' ∨ Survives cfg d (done ++ [op]) d' := by
  rcases hleft.bytes with hbytes | ⟨t', hstep, hinv', hbytes⟩
  · exact .inl (survives_of_bytes h hrun hinv hleft.names hbytes)
  · refine .inr (survives_of_bytes h ?_ hinv' hleft.names hbytes)
    rw [Runs.run_append, hrun, Option.bind_some, Runs.run_cons, hstep]
    rfl

/-- **A crash fault is a power failure.** With enough free pages, calls with hooks of which only
crash faults can kill one run as those without hooks; and where the process is killed, in a call
after those that returned, a new mount shows every file as it was synced before that call or, if it
is over, after it. -/
theorem killed_survives (h : OnePage cfg) (hlru : cfg.applyLruEviction = false)
    (rgx : Rgx) {d : Disk} (hd : ∀ i, (d.bytes i).length ≤ maxSize cfg.ioBlockSize) {s : Lfs}
    (hs : s.CrashOnly) (hlock : s.sharedHolds = 0) (hfs : s.fs = ⟨.new cfg, d⟩) {ops : List FileOp}
    (hops : Runs.Guarded (CrashState.step cfg) (fun t op => op.Proper cfg t.fs ∧ op.Roomy cfg t.fs)
      (.start cfg d) ops) :
    wp (all (FileOp.hooked cfg rgx) ops)
      (fun _ s' => Survives cfg d ops s'.fs.disk ∧
        ∃ t, Runs.run (CrashState.step cfg) (.start cfg d) ops = some t ∧ s'.fs = t.fs)
      (fun e s' => e = .killed ∧ ∃ done op rest s1, ops = done ++ op :: rest ∧
        all (FileOp.hooked cfg rgx) done s = .ok ⟨⟩ s1 ∧ op.hooked cfg rgx s1 = .error .killed s' ∧
        (Survives cfg d done s'.fs.disk ∨ Survives cfg d (done ++ [op]) s'.fs.disk)) s := by
  have hstart : (CrashState.start cfg d).Beside cfg d s [] s :=
    ⟨CrashState.inv_start h hd, .refl _, hfs, Lfs.counts_nil rfl rfl rfl rfl⟩
  have hcall : ∀ (t : CrashState) (s1 : Lfs) (op : FileOp), (∃ log, t.Beside cfg d s log s1) →
      (op.Proper cfg t.fs ∧ op.Roomy cfg t.fs) →
      wp (op.hooked cfg rgx) (fun _ s2 => ∃ t', t.step cfg op = some t' ∧ ∃ log,
        t'.Beside cfg d s log s2)
        (fun e s2 => t.Inv cfg ∧ e = .killed ∧ t.Left cfg d op s2.fs.disk) s1 := by
    rintro t s1 op ⟨log, ht⟩ hop
    have htear : op.CanTear cfg rgx (faultsOf s.faults) t.fs := by
      intro x _ f hf
      rw [hs.none] at hf
      cases hf
    refine wp_mono (ht.hooked h hlru hs.tearOnly hlock hop.1 hop.2 htear) ?_ ?_
    · rintro _ s2 ⟨t', hstep, ht'⟩
      exact ⟨t', hstep, _, ht'⟩
    · rintro e s2 ⟨rfl, ⟨-, hleft⟩ | ⟨x, ps, i, htorn⟩⟩
      · exact ⟨ht.inv, rfl, hleft⟩
      · obtain ⟨done, rest, -, -, hdue⟩ := htorn.first
        obtain ⟨f, hf, -⟩ := exists_of_dueParts hdue
        rw [hs.none] at hf
        cases hf
  refine wp_mono (wp_all_run hcall ⟨[], hstart⟩ hops) ?_ ?_
  · rintro _ s' ⟨t, hrun, log, ht⟩
    exact ⟨ht.survives h hrun, t, hrun, ht.fs⟩
  · rintro e s' ⟨done, op, rest, t, s1, hsplit, hrun, hdone, hhalt, hinv, rfl, hleft⟩
    exact ⟨rfl, done, op, rest, s1, hsplit, hdone, hhalt, hleft.survives h hinv hrun⟩

/-- A block that is written and synced. -/
def writeFsync : List FileOp := [writeAbcd, .fsync ["f"] false {}]

lemma guarded_writeFsync : Runs.Guarded (CrashState.step (.tiny 2 false))
    (fun t op => op.Proper (.tiny 2 false) t.fs ∧ op.Roomy (.tiny 2 false) t.fs)
    (.start (.tiny 2 false) oneFile) writeFsync := by
  refine ⟨⟨writeAbcd_proper, fun i hi => ?_⟩, fun s hs =>
    ⟨⟨⟨1, ?_, ?_⟩, trivial⟩, fun _ _ => trivial⟩⟩
  · obtain rfl : 1 = i := Option.some.inj hi
    decide +kernel
  · have hi : ((CrashState.start (.tiny 2 false) oneFile).step (.tiny 2 false) writeAbcd).map
        (fun s => s.fs.disk.ino ["f"]) = some (some 1) := by decide +kernel
    rwa [hs, Option.map_some, Option.some.injEq] at hi
  · exact ⟨fun _ _ _ _ => ⟨rfl, fun _ => rfl⟩, .inl ⟨rfl, rfl⟩⟩

/-- The process is killed after the write. -/
theorem killed_survives_write :
    wp (all (FileOp.hooked (.tiny 2 false) Lfs.literal) writeFsync)
      (fun _ s' => Survives (.tiny 2 false) oneFile writeFsync s'.fs.disk ∧
        ∃ t, Runs.run (CrashState.step (.tiny 2 false))
        (.start (.tiny 2 false) oneFile) writeFsync = some t ∧
          s'.fs = t.fs)
      (fun e s' => e = .killed ∧ ∃ done op rest s1, writeFsync = done ++ op :: rest ∧
        all (FileOp.hooked (.tiny 2 false) Lfs.literal) done crashAfterWrite = .ok ⟨⟩ s1 ∧
        op.hooked (.tiny 2 false) Lfs.literal s1 = .error .killed s' ∧
        (Survives (.tiny 2 false) oneFile done s'.fs.disk ∨
          Survives (.tiny 2 false) oneFile (done ++ [op]) s'.fs.disk)) crashAfterWrite :=
  killed_survives (Config.onePage_tiny 2 false) rfl _ (fun _ => Nat.zero_le _)
    ((Lfs.crashOnly_new _).arm _ _ _ _) (Lfs.sharedHolds_arm.trans rfl)
      Lfs.fs_arm guarded_writeFsync

end LazyFS
