import LazyFS.Model.FaultRoutes
import LazyFS.Hooks.Crash

/-!
**Crash faults** added through the FIFO, against the patterns they were given.

* `CrashArgs.Valid`: what the worker accepts; `Lfs.addCrashFaults` registers a list of them.
* `CrashArgs.Wanted`: every given pattern is matched; `CrashArgs.Misfires` and `CrashArgs.Missed`
  are the two ways in which `trigger_crash_fault` judges otherwise, in `crashFaultMet_iff`.
* `killed_iff_wanted_iff`: when the process is killed for the right calls.
* `rename_killed`: a source pattern that does not match kills the process.
-/

namespace LazyFS

open Program

/-- The parameters of a crash fault, `"none"` for a pattern that is not given. -/
structure CrashArgs where
  timing : String
  op : String
  fromRgx : String
  toRgx : String
  deriving DecidableEq

namespace CrashArgs

/-- The parameters that the worker accepts. -/
structure Valid (f : CrashArgs) : Prop where
  timing : f.timing = "before" ∨ f.timing = "after"
  op : f.op ∈ allowCrashFsOperations
  two : f.op ∈ fsOpMultiPath → f.fromRgx ≠ "none" ∨ f.toRgx ≠ "none"
  one : f.op ∉ fsOpMultiPath → f.fromRgx ≠ "none" ∧ f.toRgx = "none"

variable (rgx : Rgx) (fromPath toPath : String) (f : CrashArgs)

/-- The pattern of the second path is matched or not given. -/
def ToMet : Prop := f.toRgx ≠ "none" → regexMatch rgx f.toRgx toPath = true

/-- Every given pattern is matched. -/
def Wanted : Prop :=
  (f.fromRgx ≠ "none" → regexMatch rgx f.fromRgx fromPath = true) ∧ f.ToMet rgx toPath

/-- The operation has two paths, and the pattern given for the first matches neither it nor
`"none"`. -/
def Misfires : Prop :=
  f.op ∈ fsOpMultiPath ∧ f.fromRgx ≠ "none" ∧ regexMatch rgx f.fromRgx "none" = false ∧
    regexMatch rgx f.fromRgx fromPath = false ∧ f.ToMet rgx toPath

/-- No pattern is given for the first path, and it does not contain `"none"`. -/
def Missed : Prop :=
  f.fromRgx = "none" ∧ regexMatch rgx "none" fromPath = false ∧ f.ToMet rgx toPath

instance : Decidable (f.ToMet rgx toPath) := inferInstanceAs (Decidable (_ → _))

instance : Decidable (f.Wanted rgx fromPath toPath) := inferInstanceAs (Decidable (_ ∧ _))

end CrashArgs

namespace Lfs

variable {rgx : Rgx} {fromPath toPath : String} {f : CrashArgs}

/-- **One fault**: it is met when it is wanted and not missed, or misfires. -/
lemma crashFaultMet_iff (hnone : regexMatch rgx "none" "none" = true) (hf : f.Valid) :
    crashFaultMet rgx f.op fromPath toPath (f.fromRgx, f.toRgx) = true ↔
      (f.Wanted rgx fromPath toPath ∧ ¬ f.Missed rgx fromPath toPath) ∨
        f.Misfires rgx fromPath toPath := by
  rw [crashFaultMet]
  by_cases hop : f.op ∈ fsOpMultiPath
  · rw [if_pos hop]
    have hto : (if f.toRgx ≠ "none" then
          (if regexMatch rgx f.fromRgx "none" then regexMatch rgx f.fromRgx fromPath else true) &&
            regexMatch rgx f.toRgx toPath
        else if regexMatch rgx f.fromRgx "none" then regexMatch rgx f.fromRgx fromPath else true)
          = true
        ↔ (regexMatch rgx f.fromRgx "none" = true → regexMatch rgx f.fromRgx fromPath = true) ∧
          f.ToMet rgx toPath := by
      rw [CrashArgs.ToMet]
      by_cases h1 : f.toRgx = "none" <;> by_cases h2 : regexMatch rgx f.fromRgx "none" = true <;>
        simp [h1, h2]
    dsimp only
    rw [hto]
    by_cases hfrom : f.fromRgx = "none"
    · simp only [CrashArgs.Wanted, CrashArgs.Missed, CrashArgs.Misfires, hfrom, hnone]
      cases regexMatch rgx "none" fromPath <;> simp
    · simp only [CrashArgs.Wanted, CrashArgs.Missed, CrashArgs.Misfires, hfrom, hop]
      cases regexMatch rgx f.fromRgx "none" <;> cases regexMatch rgx f.fromRgx fromPath <;>
        simp [hfrom]
  · obtain ⟨h1, h2⟩ := hf.one hop
    rw [if_neg hop]
    simp [CrashArgs.Wanted, CrashArgs.Missed, CrashArgs.Misfires, CrashArgs.ToMet, h1, h2, hop]

/-! ### The crash faults that were added -/

/-- The parameters in a command. -/
def crashArgs (command : List Char) : CrashArgs :=
  let a := checkCrash ((splitPieces command).foldl crashPiece {})
  ⟨String.ofList a.timing, String.ofList a.op, String.ofList a.fromRgx, String.ofList a.toRgx⟩

/-- The worker finds no error in a command that has a timing and an operation. -/
structure Accepted (command : List Char) : Prop where
  errors : (checkCrash ((splitPieces command).foldl crashPiece {})).errors = []
  timing : (crashArgs command).timing ≠ "none"
  op : (crashArgs command).op ≠ "none"

/-- What a piece leaves of the timing and the operation. -/
lemma crashPiece_known {a : Attributes} (piece : List Char)
    (h : (String.ofList a.timing ∈ ["none", "before", "after"]) ∧
      (String.ofList a.op = "none" ∨ String.ofList a.op ∈ allowCrashFsOperations)) :
    (String.ofList (crashPiece a piece).timing ∈ ["none", "before", "after"]) ∧
      (String.ofList (crashPiece a piece).op = "none" ∨
        String.ofList (crashPiece a piece).op ∈ allowCrashFsOperations) := by
  rw [crashPiece]
  split
  · split_ifs with hv
    · exact ⟨h.1, .inr hv.2⟩
    · exact h
  · split_ifs with hv
    · refine ⟨?_, h.2⟩
      rcases hv with rfl | rfl
      · simp
      · simp
    · exact h
  · split_ifs
    · exact h
    · exact h
  · split_ifs
    · exact h
    · exact h
  · exact h

/-- A command that is accepted has valid parameters. -/
lemma Accepted.valid {command : List Char} (h : Accepted command) : (crashArgs command).Valid := by
  -- the pieces leave only a timing and an operation that are known
  have hknown : ∀ (l : List (List Char)) (a : Attributes),
      (String.ofList a.timing ∈ ["none", "before", "after"]) ∧
        (String.ofList a.op = "none" ∨ String.ofList a.op ∈ allowCrashFsOperations) →
      (String.ofList (l.foldl crashPiece a).timing ∈ ["none", "before", "after"]) ∧
        (String.ofList (l.foldl crashPiece a).op = "none" ∨
          String.ofList (l.foldl crashPiece a).op ∈ allowCrashFsOperations) := by
    intro l
    induction l with
    | nil => exact fun a ha => ha
    | cons piece l ih => exact fun a ha => ih _ (crashPiece_known piece ha)
  obtain ⟨h1, h2⟩ := hknown (splitPieces command) {} (by simp)
  obtain ⟨he, ht, ho⟩ := h
  rw [crashArgs] at ht ho ⊢
  generalize (splitPieces command).foldl crashPiece {} = a at h1 h2 he ht ho
  -- the check changes no attribute
  have hsame : (checkCrash a).timing = a.timing ∧ (checkCrash a).op = a.op ∧
      (checkCrash a).fromRgx = a.fromRgx ∧ (checkCrash a).toRgx = a.toRgx := by
    rw [checkCrash]
    split_ifs
    · exact ⟨rfl, rfl, rfl, rfl⟩
    · exact ⟨rfl, rfl, rfl, rfl⟩
    · exact ⟨rfl, rfl, rfl, rfl⟩
    · exact ⟨rfl, rfl, rfl, rfl⟩
  have hnone : ∀ l : List Char, String.ofList l = "none" ↔ l = "none".toList := by
    intro l
    constructor
    · intro hl
      rw [← hl, String.toList_ofList]
    · intro hl
      rw [hl, String.ofList_toList]
  dsimp only at ht ho ⊢
  rw [hsame.1] at ht
  rw [hsame.2.1] at ho
  rw [hsame.1, hsame.2.1, hsame.2.2.1, hsame.2.2.2]
  -- it reports the patterns that the operation does not take
  rw [checkCrash] at he
  refine ⟨?_, h2.resolve_left ho, fun hop => ?_, fun hop => ?_⟩
  · simpa [ht] using h1
  · dsimp only at hop ⊢
    rw [if_pos hop] at he
    split_ifs at he with hno
    · simp [Attributes.err] at he
    · by_contra hcon
      push Not at hcon
      exact hno ⟨(hnone _).mp hcon.1, (hnone _).mp hcon.2⟩
  · dsimp only at hop ⊢
    rw [if_neg hop] at he
    split_ifs at he with hno
    · simp [Attributes.err] at he
    · push Not at hno
      exact ⟨fun hc => hno.1 ((hnone _).mp hc), (hnone _).mpr hno.2⟩

/-- The worker on a list of commands. -/
def fhtWorkerAll : List (List Char) → FaultM PUnit
  | [] => pure ⟨⟩
  | command :: rest => do
      let _ ← fhtWorkerCrash command
      fhtWorkerAll rest

/-- The crash faults of `l` for an operation at a timing, as the table has them. -/
def crashEntries (timing op : String) (l : List CrashArgs) : List (String × String) :=
  (l.filter fun f => f.op = op ∧ (f.timing = "before" ↔ timing = "before")).map fun f =>
    (f.fromRgx, f.toRgx)

/-- One command that is accepted. -/
lemma Accepted.run {command : List Char} (h : Accepted command) {s : Lfs}
    (hs : ∀ timing, ∀ op ∈ allowCrashFsOperations, (s.crashFaultsAt timing op).isSome) :
    fhtWorkerCrash command s = .ok [] (s.arm (crashArgs command).timing (crashArgs command).op
      (crashArgs command).fromRgx (crashArgs command).toRgx) := by
  rw [fhtWorkerCrash]
  rw [if_pos h.errors]
  have hadd : addCrashFault (crashArgs command).timing (crashArgs command).op
      (crashArgs command).fromRgx
      (crashArgs command).toRgx s = _ :=
      addCrashFault_eq (hs (crashArgs command).timing _ h.valid.op)
  rw [crashArgs] at hadd ⊢
  simp only [bind, EStateM.bind, hadd]
  rfl

/-- **The table** after a list of commands that are accepted. -/
lemma fhtWorkerAll_ok {commands : List (List Char)} (h : ∀ c ∈ commands, Accepted c) {s : Lfs}
    (hs : ∀ timing, ∀ op ∈ allowCrashFsOperations, (s.crashFaultsAt timing op).isSome) :
    ∃ s', fhtWorkerAll commands s = .ok ⟨⟩ s' ∧ ∀ timing op, s'.crashFaultsAt timing op
      = (s.crashFaultsAt timing op).map (· ++ crashEntries timing op (commands.map crashArgs)) := by
  induction commands generalizing s with
  | nil =>
      refine ⟨s, rfl, fun timing op => ?_⟩
      cases s.crashFaultsAt timing op with
      | none => rfl
      | some l => simp [crashEntries]
  | cons command commands ih =>
      have hc := h command List.mem_cons_self
      have hrun := hc.run hs
      set f := crashArgs command with hf
      -- one command appends its fault to the table of its timing and operation
      have hat : ∀ timing op, (s.arm f.timing f.op f.fromRgx f.toRgx).crashFaultsAt timing op
          = (s.crashFaultsAt timing op).map (· ++ crashEntries timing op [f]) := by
        intro timing op
        rw [crashFaultsAt_arm, crashEntries, List.filter_cons]
        by_cases hm : (timing = "before" ↔ f.timing = "before") ∧ op = f.op
        · rw [if_pos hm, if_pos (by simp [hm.1, hm.2])]
          rfl
        · rw [if_neg hm, if_neg (by
            simp only [decide_eq_true_eq]
            exact fun hcon => hm ⟨hcon.2.symm, hcon.1.symm⟩)]
          cases s.crashFaultsAt timing op <;> simp
      obtain ⟨s', hall, hs'⟩ := ih (s := s.arm f.timing f.op f.fromRgx f.toRgx)
        (fun c hc => h c (List.mem_cons_of_mem _ hc)) (fun timing op hop => by
          rw [hat, Option.isSome_map]
          exact hs timing op hop)
      refine ⟨s', ?_, fun timing op => ?_⟩
      · rw [fhtWorkerAll]
        simp only [bind, EStateM.bind, hrun]
        exact hall
      · rw [hs', hat, List.map_cons, ← hf]
        cases s.crashFaultsAt timing op with
        | none => rfl
        | some l =>
            have hcons : crashEntries timing op (f :: commands.map crashArgs)
                = crashEntries timing op [f]
                  ++ crashEntries timing op (commands.map crashArgs) := by
              rw [crashEntries, crashEntries, crashEntries, ← List.map_append, ← List.filter_append]
              rfl
            rw [hcons]
            simp

/-- The process is killed at the hook of an operation. -/
def Kills (rgx : Rgx) (op timing fromPath toPath : String) (s : Lfs) : Prop :=
  triggerCrashFault rgx op timing fromPath toPath s = .error .killed s

/-- The faults for an operation at a timing. -/
def faultsAt (timing op : String) (commands : List (List Char)) : List CrashArgs :=
  (commands.map crashArgs).filter fun f => f.op = op ∧ f.timing = timing

/-- The hook kills the process when a fault for its operation and timing is met. -/
lemma kills_iff {fs : FS} {faults : Faults} {commands : List (List Char)} {s : Lfs}
    (h : ∀ c ∈ commands, Accepted c) (hs : fhtWorkerAll commands (Lfs.new fs faults) = .ok ⟨⟩ s)
    {op timing : String} (hop : op ∈ allowCrashFsOperations)
    (ht : timing = "before" ∨ timing = "after") (fromPath toPath : String) :
    Kills rgx op timing fromPath toPath s ↔ ∃ f ∈ faultsAt timing op commands,
      crashFaultMet rgx op fromPath toPath (f.fromRgx, f.toRgx) = true := by
  obtain ⟨s', hs', hat⟩ := fhtWorkerAll_ok h (s := Lfs.new fs faults) fun timing op hop => by
    rw [crashFaultsAt_new fs faults timing hop]
    rfl
  rw [hs, EStateM.Result.ok.injEq] at hs'
  rw [Kills, triggerCrashFault_eq, hs'.2, hat, crashFaultsAt_new fs faults timing hop,
    Option.map_some, List.nil_append]
  have htiming : ∀ f ∈ commands.map crashArgs,
      ((f.timing = "before" ↔ timing = "before") ↔ f.timing = timing) := by
    intro f hf
    obtain ⟨c, hc, rfl⟩ := List.mem_map.mp hf
    rcases (h c hc).valid.timing with h1 | h1 <;> rcases ht with rfl | rfl <;> simp [h1]
  have hany : (crashEntries timing op (commands.map crashArgs)).any
      (crashFaultMet rgx op fromPath toPath) = true ↔ ∃ f ∈ faultsAt timing op commands,
        crashFaultMet rgx op fromPath toPath (f.fromRgx, f.toRgx) = true := by
    rw [List.any_eq_true]
    constructor
    · rintro ⟨e, he, hmet⟩
      obtain ⟨f, hf, rfl⟩ := List.mem_map.mp he
      rw [List.mem_filter, decide_eq_true_eq] at hf
      refine ⟨f, List.mem_filter.mpr ⟨hf.1, ?_⟩, hmet⟩
      rw [decide_eq_true_eq]
      exact ⟨hf.2.1, (htiming f hf.1).mp hf.2.2⟩
    · rintro ⟨f, hf, hmet⟩
      rw [faultsAt, List.mem_filter, decide_eq_true_eq] at hf
      refine ⟨_, List.mem_map.mpr ⟨f, List.mem_filter.mpr ⟨hf.1, ?_⟩, rfl⟩, hmet⟩
      rw [decide_eq_true_eq]
      exact ⟨hf.2.1, (htiming f hf.1).mpr hf.2.2⟩
  rw [← hany]
  dsimp only
  split_ifs with hc
  · simp [hc]
  · simp [hc]

/-- No fault misfires unless another is wanted, and none is missed unless another kills the
process. -/
def JudgedRight (rgx : Rgx) (fromPath toPath : String) (l : List CrashArgs) : Prop :=
  ((∃ f ∈ l, f.Misfires rgx fromPath toPath) → ∃ f ∈ l, f.Wanted rgx fromPath toPath) ∧
    ((∃ f ∈ l, f.Missed rgx fromPath toPath) → ∃ f ∈ l, f.Misfires rgx fromPath toPath ∨
      f.Wanted rgx fromPath toPath ∧ ¬ f.Missed rgx fromPath toPath)

/-- **Crash faults**: the hook kills the process for a wanted fault and only then, exactly when the
registered faults are judged right. -/
theorem killed_iff_wanted_iff (hnone : regexMatch rgx "none" "none" = true) (fs : FS)
    (faults : Faults) {commands : List (List Char)} (h : ∀ c ∈ commands, Accepted c)
    {op timing : String} (hop : op ∈ allowCrashFsOperations)
    (ht : timing = "before" ∨ timing = "after") (fromPath toPath : String) :
    ∃ s, fhtWorkerAll commands (Lfs.new fs faults) = .ok ⟨⟩ s ∧
      ((Kills rgx op timing fromPath toPath s ↔
        ∃ f ∈ faultsAt timing op commands, f.Wanted rgx fromPath toPath) ↔
      JudgedRight rgx fromPath toPath (faultsAt timing op commands)) := by
  obtain ⟨s, hs, -⟩ := fhtWorkerAll_ok h (s := Lfs.new fs faults) fun timing op hop => by
    rw [crashFaultsAt_new fs faults timing hop]
    rfl
  refine ⟨s, hs, ?_⟩
  -- a fault is met where it is wanted, but for those missed and those that misfire
  have hmet : ∀ f ∈ faultsAt timing op commands,
      (crashFaultMet rgx op fromPath toPath (f.fromRgx, f.toRgx) = true ↔
        (f.Wanted rgx fromPath toPath ∧ ¬ f.Missed rgx fromPath toPath) ∨
          f.Misfires rgx fromPath toPath) := by
    intro f hf
    rw [faultsAt, List.mem_filter, decide_eq_true_eq] at hf
    obtain ⟨c, hc, rfl⟩ := List.mem_map.mp hf.1
    rw [← hf.2.1]
    exact crashFaultMet_iff hnone (h c hc).valid
  rw [kills_iff h hs hop ht]
  constructor
  · -- no fault misfires, and for one that is missed another is met
    intro hiff
    refine ⟨fun ⟨f, hf, hmis⟩ => hiff.mp ⟨f, hf, (hmet f hf).mpr (.inr hmis)⟩,
      fun ⟨f, hf, hmiss⟩ => ?_⟩
    have hwanted : f.Wanted rgx fromPath toPath := ⟨fun hne => absurd hmiss.1 hne, hmiss.2.2⟩
    obtain ⟨g, hg, hgmet⟩ := hiff.mpr ⟨f, hf, hwanted⟩
    exact ⟨g, hg, ((hmet g hg).mp hgmet).symm⟩
  · rintro ⟨h1, h2⟩
    constructor
    · rintro ⟨f, hf, hfmet⟩
      rcases (hmet f hf).mp hfmet with ⟨hw, -⟩ | hmis
      · exact ⟨f, hf, hw⟩
      · exact h1 ⟨f, hf, hmis⟩
    · rintro ⟨f, hf, hw⟩
      by_cases hmiss : f.Missed rgx fromPath toPath
      · obtain ⟨g, hg, hor⟩ := h2 ⟨f, hf, hmiss⟩
        exact ⟨g, hg, (hmet g hg).mpr hor.symm⟩
      · exact ⟨f, hf, (hmet f hf).mpr (.inl ⟨hw, hmiss⟩)⟩

/-- Patterns without a special character, between `".*"` on both sides, on a string without a line
break. -/
def literal : Rgx := fun r x => decide ((r.toList.drop 2).dropLast.dropLast <:+: x.toList)

/-- The first command of the documentation, and a write to the file it names. -/
theorem killed_iff_wanted_iff_write :
    ∃ s, fhtWorkerAll ["lazyfs::crash::timing=before::op=write::from_rgx=file1".toList]
        (Lfs.new ⟨.new (.tiny 1 false), .empty⟩ ∅) = .ok ⟨⟩ s ∧
      ((Kills literal "write" "before" "/file1" "" s ↔
        ∃ f ∈ faultsAt "before" "write"
          ["lazyfs::crash::timing=before::op=write::from_rgx=file1".toList],
          f.Wanted literal "/file1" "") ↔
      JudgedRight literal "/file1" "" (faultsAt "before" "write"
        ["lazyfs::crash::timing=before::op=write::from_rgx=file1".toList])) := by
  refine killed_iff_wanted_iff (by decide +kernel) _ _ (fun c hc => ?_) (by decide) (.inl rfl) _ _
  rw [List.mem_singleton.mp hc]
  exact ⟨by decide +kernel, by decide +kernel, by decide +kernel⟩

/-- **A source pattern is ignored**: a `rename` of another file kills the process. -/
theorem rename_killed :
    ∃ s, fhtWorkerAll ["lazyfs::crash::timing=before::op=rename::from_rgx=file1".toList]
        (Lfs.new ⟨.new (.tiny 1 false), .empty⟩ ∅) = .ok ⟨⟩ s ∧
      Kills literal "rename" "before" "/a" "/b" s ∧
      ¬ ∃ f ∈ faultsAt "before" "rename"
        ["lazyfs::crash::timing=before::op=rename::from_rgx=file1".toList],
        f.Wanted literal "/a" "/b" := by
  have hc : ∀ c ∈ ["lazyfs::crash::timing=before::op=rename::from_rgx=file1".toList],
      Accepted c := by
    intro c hc
    rw [List.mem_singleton.mp hc]
    exact ⟨by decide +kernel, by decide +kernel, by decide +kernel⟩
  obtain ⟨s, hs, -⟩ := fhtWorkerAll_ok hc (s := Lfs.new ⟨.new (.tiny 1 false), .empty⟩ ∅)
    fun timing op hop => by
      rw [crashFaultsAt_new _ _ timing hop]
      rfl
  refine ⟨s, hs, ?_, by decide +kernel⟩
  rw [kills_iff hc hs (by decide) (.inl rfl)]
  decide +kernel

end Lfs

end LazyFS
