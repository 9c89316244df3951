import LazyFS.Guarantees.TornOp
import LazyFS.Guarantees.Commands

/-!
**Registered torn-op faults**: what `split_write` may rely on.

* `SplitWriteF.Registered`: the faults that the configuration file or a command registers; `Valid`
  is what `validate` has checked of them (`Registered.valid`).
* `SplitWriteF.Safe`: no division by zero, no look-up past the list of sizes, no piece outside the
  buffer; `safe_iff`: when a registered fault is safe for a write.
* `wrapped_sum_overruns`: a fault whose sizes add up to the write as an `int` only.
-/

namespace LazyFS

open Program Lfs

namespace SplitWriteF

variable {f : SplitWriteF} {size offset : ℕ}

/-- What `validate` checks of the parts. -/
def Valid (f : SplitWriteF) : Prop := (1 ≤ f.parts ∧ ∀ p ∈ f.persist, 1 ≤ p ∧ p ≤ f.parts) ∨ f.Sized

/-- The faults that either route registers. -/
inductive Registered (f : SplitWriteF) : Prop where
  | file (injections : List Injection) (path : String)
      (h : .splitWrite f ∈ faultsOf (Injection.loadInjections injections) path) : Registered f
  | fifo (command : List Char) (s s' : Lfs) (errors : List String) (path : String)
      (hrun : fhtWorkerTornOp command s = .ok errors s')
      (hnew : .splitWrite f ∉ faultsOf s.faults path)
        (h : .splitWrite f ∈ faultsOf s'.faults path) :
      Registered f

/-! ### What the validator has checked -/

lemma valid_ofParts {occurrence parts : ℤ} {persist : List ℤ}
    (h : validate occurrence persist (some parts) none = []) :
    (ofParts occurrence persist parts).Valid := by
  simp [validate, nrParts] at h
  obtain ⟨-, hparts, hpersist⟩ := h
  refine .inl ⟨hparts, fun p hp => ?_⟩
  have hnot := of_decide_eq_false (hpersist p hp)
  push Not at hnot
  exact hnot

lemma valid_ofPartsBytes {occurrence : ℤ} {persist partsBytes : List ℤ}
    (h : validate occurrence persist none (some partsBytes) = []) :
    (ofPartsBytes occurrence persist partsBytes).Valid := by
  simp [validate, nrParts] at h
  obtain ⟨-, hbytes, hpersist⟩ := h
  refine .inr ⟨rfl, hbytes, fun p hp => ?_⟩
  have hnot := of_decide_eq_false (hpersist p hp)
  push Not at hnot
  exact hnot

/-- The tables of faults in which every torn-op fault has been checked. -/
def AllValid (m : Faults) : Prop := ∀ path g, .splitWrite g ∈ faultsOf m path → g.Valid

lemma allValid_set {m : Faults} (hm : AllValid m) (path : String) {fault : Fault}
    (hf : ∀ g, fault = .splitWrite g → g.Valid) :
    AllValid (m.set path (faultsOf m path ++ [fault])) := by
  intro p g hg
  rw [faultsOf, Map.lookup_set] at hg
  split at hg
  · rw [Option.getD_some, List.mem_append, List.mem_singleton] at hg
    rcases hg with hg | hg
    · exact hm _ _ hg
    · exact hf g hg.symm
  · exact hm _ _ hg

/-- A fault registered in the file. -/
lemma allValid_register {m : Faults} (hm : AllValid m) {path : String} {fault : Fault}
    {sameKind : Fault → Bool} (hf : ∀ g, fault = .splitWrite g → g.Valid) :
    AllValid (Injection.register m path fault sameKind) := by
  rw [Injection.register]
  split
  · rename_i hnone
    have h := allValid_set hm path hf
    rwa [faultsOf, hnone] at h
  · rename_i v hv
    split
    · exact hm
    · have h := allValid_set hm path hf
      rwa [faultsOf, hv] at h

/-- One table of the file. -/
lemma allValid_load {m : Faults} (hm : AllValid m) (injection : Injection) :
    AllValid (Injection.load m injection) := by
  rw [Injection.load]
  split_ifs
  · rw [Injection.loadTornSeq]
    split
    · exact allValid_register hm fun g hg => by cases hg
    · exact hm
  · rw [Injection.loadTornOp]
    split
    · split
      · split
        · rename_i hv
          exact allValid_register hm fun g hg => by cases hg; exact valid_ofParts hv
        · exact hm
      · split
        · rename_i hv
          exact allValid_register hm fun g hg => by cases hg; exact valid_ofPartsBytes hv
        · exact hm
      · exact hm
    · exact hm
  · rw [Injection.loadClear]
    split
    · dsimp only
      split
      · exact allValid_register hm fun g hg => by cases hg
      · exact hm
    · exact hm
  · exact hm

lemma allValid_loadInjections (injections : List Injection) :
    AllValid (Injection.loadInjections injections) := by
  have h : ∀ (l : List Injection) (m : Faults), AllValid m →
      AllValid (l.foldl Injection.load m) := by
    intro l
    induction l with
    | nil => exact fun _ hm => hm
    | cons injection l ih => exact fun m hm => ih _ (allValid_load hm injection)
  refine h injections ∅ fun path g hg => ?_
  cases hg

/-- A fault that the end of `add_torn_op_fault` adds. -/
lemma valid_addFault {s s' : Lfs} {path : String} {fault : Fault} {sameKind : Fault → Bool}
    {onlyOne : String} {errors : List String} (hf : ∀ g, fault = .splitWrite g → g.Valid)
    (h : addFault path fault sameKind onlyOne s = .ok errors s') {p : String}
    (hg : .splitWrite f ∈ faultsOf s'.faults p) : .splitWrite f ∈ faultsOf s.faults p ∨
    f.Valid := by
  rcases TornText.addFault_eq (s := s) path fault sameKind onlyOne with ⟨e, hadd, -⟩ | ⟨hadd, -⟩
  · rw [hadd, EStateM.Result.ok.injEq] at h
    exact .inl (h.2 ▸ hg)
  · rw [hadd, EStateM.Result.ok.injEq] at h
    rw [← h.2, Lfs.withFault, faultsOf, Map.lookup_set] at hg
    split at hg
    · rename_i hp
      rw [Option.getD_some, List.mem_append, List.mem_singleton, ← hp] at hg
      exact hg.imp_right fun hg => hf f hg.symm
    · exact .inl hg

/-- A fault that a command adds. -/
lemma valid_addTornOpFault {s s' : Lfs} {path parts partsBytes persist occurrence : List Char}
    {errors : List String}
    (h : addTornOpFault path parts partsBytes persist occurrence s = .ok errors s') {p : String}
    (hg : .splitWrite f ∈ faultsOf s'.faults p) :
    .splitWrite f ∈ faultsOf s.faults p ∨ f.Valid := by
  have hread : ¬ (numbers persist = none ∨
      (if partsBytes = "none".toList then some [] else numbers partsBytes) = none ∨
      numberOr (-1) parts = none ∨ numberOr 1 occurrence = none) := by
    intro hnone
    rw [addTornOpFault_throws hnone] at h
    cases h
  push Not at hread
  obtain ⟨hpersist, hbytes, hparts, hoccurrence⟩ := hread
  obtain ⟨persistv, hpersist⟩ := Option.ne_none_iff_exists'.mp hpersist
  obtain ⟨partsBytesV, hbytes⟩ := Option.ne_none_iff_exists'.mp hbytes
  obtain ⟨partsi, hparts⟩ := Option.ne_none_iff_exists'.mp hparts
  obtain ⟨occurrencei, hoccurrence⟩ := Option.ne_none_iff_exists'.mp hoccurrence
  rw [addTornOpFault_eq hpersist hbytes hparts hoccurrence] at h
  by_cases hne : partsi ≠ -1
  · simp only [if_pos hne] at h
    split at h
    · rename_i hvalid
      exact valid_addFault (fun g hg => by cases hg; exact valid_ofParts hvalid) h hg
    · exact .inl ((EStateM.Result.ok.inj h).2 ▸ hg)
  · simp only [if_neg hne] at h
    split at h
    · rename_i hvalid
      exact valid_addFault (fun g hg => by cases hg; exact valid_ofPartsBytes hvalid) h hg
    · exact .inl ((EStateM.Result.ok.inj h).2 ▸ hg)

/-- **Whatever registers a fault has checked it.** -/
lemma Registered.valid (h : Registered f) : f.Valid := by
  cases h with
  | file injections path h => exact allValid_loadInjections injections path f h
  | fifo command s s' errors path hrun hnew h =>
      have hchecked : ∀ a : Attributes,
          (if a.errors = [] then addTornOpFault a.file a.parts a.partsBytes a.persist a.occurrence
            else pure a.errors : FaultM (List String)) s = .ok errors s' → f.Valid := by
        intro a ha
        by_cases he : a.errors = []
        · rw [if_pos he] at ha
          exact (valid_addTornOpFault ha h).resolve_left hnew
        · rw [if_neg he] at ha
          exact absurd ((EStateM.Result.ok.inj ha).2 ▸ h) hnew
      exact hchecked _ hrun

/-! ### Safety -/

/-- `split_write` divides by a number of parts that is not zero, looks up sizes that are there, and
every piece that it hands to `pwrite` lies in the buffer. -/
structure Safe (f : SplitWriteF) (size offset : ℕ) : Prop where
  divides : f.parts ≠ -1 → f.parts ≠ 0
  looksUp : f.parts = -1 → ∀ p ∈ f.persist, 0 ≤ p - 1 ∧ p - 1 < f.partsBytes.length
  within : ∀ ps, splitParts f size offset = some ps →
    ∀ p ∈ attempted ps, 0 ≤ p.1 ∧ p.1 + p.2.1 ≤ size

/-- The numbers of the parts that the loop comes to: it stops after the first one whose offset in
the file is negative as an `int`. -/
def reached (f : SplitWriteF) (offset : ℕ) : List ℤ → List ℤ
  | [] => []
  | j :: l => j :: if 0 ≤ toInt (offset + f.start j) then reached f offset l else []

/-- If the sizes add up to the write modulo `2^32`, then so do those before each part reached to a
place in the buffer with room for the part. -/
def Fitting (f : SplitWriteF) (size offset : ℕ) : Prop :=
  f.parts = -1 → f.partsBytes.sum % 2 ^ 32 = size →
    ∀ j ∈ f.reached offset f.persist,
      f.start j % 2 ^ 32 + f.partsBytes.getD (j - 1).toNat 0 ≤ size

instance (f : SplitWriteF) (size offset : ℕ) : Decidable (f.Fitting size offset) :=
  inferInstanceAs (Decidable (_ → _))

lemma toInt_eq_emod (n : ℤ) :
    toInt n = if n % 2 ^ 32 < 2 ^ 31 then n % 2 ^ 32 else n % 2 ^ 32 - 2 ^ 32 := by
  rw [toInt, Int.bmod_def]
  norm_num

/-- The check on the sum goes by the sum modulo `2^32`. -/
lemma addsUp_iff (hs : size < 2 ^ 31) : f.AddsUp size ↔ f.partsBytes.sum % 2 ^ 32 = size := by
  rw [AddsUp, toInt_eq_emod]
  split_ifs <;> omega

/-- A piece lies in the buffer exactly when its true start does, modulo `2^32`. -/
lemma toInt_within_iff (hs : size < 2 ^ 31) {n b : ℤ} (hb : 0 ≤ b) :
    (0 ≤ toInt n ∧ toInt n + b ≤ size) ↔ n % 2 ^ 32 + b ≤ size := by
  rw [toInt_eq_emod]
  split_ifs <;> omega

lemma getD_nonneg (hf : f.Sized) (n : ℕ) : 0 ≤ f.partsBytes.getD n 0 := by
  rw [List.getD_eq_getElem?_getD]
  cases h : f.partsBytes[n]? with
  | none => exact le_rfl
  | some b => exact (hf.positive b (List.mem_of_getElem? h)).le

/-- A part ends before the sizes of all parts add up. -/
lemma start_add_le_sum (hf : f.Sized) {j : ℤ} (hj : j ∈ f.persist) :
    f.start j + f.partsBytes.getD (j - 1).toNat 0 ≤ f.partsBytes.sum := by
  have hk : (j - 1).toNat < f.partsBytes.length := by
    have := hf.within j hj
    omega
  have htake : f.start j + f.partsBytes.getD (j - 1).toNat 0
      = (f.partsBytes.take ((j - 1).toNat + 1)).sum := by
    rw [start, List.sum_take_succ _ _ hk, List.getD_eq_getElem?_getD,
      List.getElem?_eq_getElem hk, Option.getD_some]
  have hsum := List.sum_take_add_sum_drop f.partsBytes ((j - 1).toNat + 1)
  have hdrop : 0 ≤ (f.partsBytes.drop ((j - 1).toNat + 1)).sum :=
    List.sum_nonneg fun b hb => (hf.positive b (List.mem_of_mem_drop hb)).le
  omega

lemma mem_of_mem_reached {offset : ℕ} {l : List ℤ} {j : ℤ} (hj : j ∈ f.reached offset l) :
    j ∈ l := by
  induction l with
  | nil => exact hj
  | cons k l ih =>
      rw [reached, List.mem_cons] at hj
      rcases hj with rfl | hj
      · exact List.mem_cons_self
      · split_ifs at hj
        · exact List.mem_cons_of_mem _ (ih hj)
        · cases hj

/-- Where the sizes add up to less than `2^32`, the parts fit. -/
lemma fitting_of_sum_lt (hf : f.Valid) (hsum : f.partsBytes.sum < 2 ^ 32) :
    f.Fitting size offset := by
  intro hparts hmod j hj
  have hsized : f.Sized := hf.resolve_left fun h => by omega
  have hpart := start_add_le_sum hsized (mem_of_mem_reached hj)
  have hstart := start_nonneg hsized j
  have hbytes := getD_nonneg hsized (j - 1).toNat
  rw [Int.emod_eq_of_lt (by omega) hsum] at hmod
  rw [Int.emod_eq_of_lt hstart (by omega)]
  omega

lemma attempted_keptParts (offset : ℕ) :
    attempted (f.keptParts offset) = (f.reached offset f.persist).map fun j =>
      (toInt (f.start j), f.partsBytes.getD (j - 1).toNat 0,
        toInt (offset + toInt (f.start j))) := by
  rw [keptParts]
  induction f.persist with
  | nil => rfl
  | cons j l ih =>
      have hseeks : Part.Seeks (toInt (f.start j), f.partsBytes.getD (j - 1).toNat 0,
          toInt (offset + toInt (f.start j))) ↔ 0 ≤ toInt (offset + f.start j) := by
        rw [← toInt_add_toInt offset (f.start j)]
        rfl
      rw [List.map_cons, attempted, reached, List.map_cons]
      refine congrArg (List.cons _) ?_
      by_cases h : 0 ≤ toInt (offset + f.start j)
      · rw [if_pos h, if_pos (hseeks.mpr h), ih]
      · rw [if_neg h, if_neg fun hp => h (hseeks.mp hp)]
        rfl

lemma mem_of_mem_attempted {ps : List Part} {p : Part} (h : p ∈ attempted ps) : p ∈ ps := by
  induction ps with
  | nil => exact h
  | cons q ps ih =>
      rw [attempted, List.mem_cons] at h
      rcases h with rfl | h
      · exact List.mem_cons_self
      · split at h
        · exact List.mem_cons_of_mem _ (ih h)
        · cases h

/-- Every piece of equal parts lies in the buffer. -/
lemma within_even (hparts : 1 ≤ f.parts) (hwithin : ∀ p ∈ f.persist, 1 ≤ p ∧ p ≤ f.parts)
    (hs : size < 2 ^ 31) {ps : List Part} (h : splitParts f size offset = some ps) :
    ∀ p ∈ ps, 0 ≤ p.1 ∧ p.1 + p.2.1 ≤ size := by
  have hne : ¬ f.parts = -1 := by omega
  rw [splitParts, if_neg hne] at h
  dsimp only at h
  obtain rfl := Option.some.inj h
  intro p hp
  obtain ⟨⟨j, i⟩, hx, rfl⟩ := List.mem_map.mp hp
  have hj : j ∈ f.persist := List.fst_mem_of_mem_zipIdx hx
  have hf : f.Even := ⟨hparts, List.ne_nil_of_mem hj, hwithin⟩
  have hle := start_add_le hf hj size
  dsimp only
  rw [toInt_partStart hf hj hs, toInt_partLength hf hj hs]
  split_ifs <;> omega

/-- Where the parts of given sizes are kept, the pieces reached lie in the buffer exactly when they
fit. -/
lemma within_sized_iff (hf : f.Sized) (hs : size < 2 ^ 31) :
    (∀ ps, splitParts f size offset = some ps → ∀ p ∈ attempted ps, 0 ≤ p.1 ∧ p.1 + p.2.1 ≤ size) ↔
      f.Fitting size offset := by
  have hiff : (∀ p ∈ attempted (f.keptParts offset), 0 ≤ p.1 ∧ p.1 + p.2.1 ≤ size) ↔
      ∀ j ∈ f.reached offset f.persist,
        f.start j % 2 ^ 32 + f.partsBytes.getD (j - 1).toNat 0 ≤ size := by
    rw [attempted_keptParts, List.forall_mem_map]
    exact forall₂_congr fun j _ => toInt_within_iff hs (getD_nonneg hf _)
  rw [Fitting, ← addsUp_iff hs]
  by_cases hadd : f.persist = [] ∨ f.AddsUp size
  · rw [splitParts_of_addsUp hf hadd]
    constructor
    · exact fun h _ _ => hiff.mp (h _ rfl)
    · intro h ps hps
      obtain rfl := Option.some.inj hps
      rcases hadd with hnil | hadd
      · rw [keptParts, hnil]
        exact fun p hp => absurd hp List.not_mem_nil
      · exact hiff.mpr (h hf.parts hadd)
  · push Not at hadd
    rw [splitParts_of_not_addsUp hf hadd.1 hadd.2]
    exact iff_of_true (fun ps hps => by cases hps) fun _ h => absurd h hadd.2

/-- The counter does not matter. -/
lemma safe_counter (n : ℤ) : Safe { f with counter := n } size offset ↔ f.Safe size offset :=
  ⟨fun h => ⟨h.divides, h.looksUp, h.within⟩, fun h => ⟨h.divides, h.looksUp, h.within⟩⟩

/-- **A registered torn-op fault, whatever it has counted, is safe for a write** exactly when its
sizes do not add up to the write, as numbers modulo `2^32`, or the parts reached fit. -/
theorem safe_iff (hf : f.Registered) (counter : ℤ) (hs : size < 2 ^ 31) :
    Safe { f with counter := counter } size offset ↔ f.Fitting size offset := by
  rw [safe_counter]
  rcases hf.valid with ⟨hparts, hwithin⟩ | hsized
  · refine iff_of_true ⟨fun _ => by omega, fun h => by omega, fun ps hps p hp => ?_⟩ fun h => by
      omega
    exact within_even hparts hwithin hs hps p (mem_of_mem_attempted hp)
  · rw [← within_sized_iff hsized hs]
    refine ⟨fun h => h.within, fun h => ⟨fun hne => absurd hsized.parts hne, fun _ p hp => ?_, h⟩⟩
    have := hsized.within p hp
    omega

/-- A fault of a configuration file: the sizes add up to `2^32 + 1`. -/
def wrapped : SplitWriteF := .ofPartsBytes 1 [1] [2147483647, 2147483647, 3]

/-- A configuration file with one torn-op fault, given by the sizes of its parts. -/
def fileWith (persist partsBytes : List ℤ) : List Injection :=
  [{ type := "torn-op", file := some "f", occurrence := some 1, persist := some persist,
     partsBytes := some partsBytes }]

/-- A write of the two bytes is torn inside its buffer. -/
theorem safe_iff_secondByte : Safe { secondByte with counter := 1 } 2 0 :=
  (safe_iff (.file (fileWith [2] [1, 1]) "f" (by decide)) 1 (by decide)).mpr (by decide +kernel)

/-- **A write of one byte of which `2^31 - 1` bytes are sent**: the sum of the sizes overflows. -/
theorem wrapped_sum_overruns : wrapped.Registered ∧ ¬ wrapped.Safe 1 0 := by
  have hsized : wrapped.Sized := ⟨rfl, by decide, by decide⟩
  refine ⟨.file (fileWith [1] [2147483647, 2147483647, 3]) "f" (by decide), fun h => ?_⟩
  have hfits := (within_sized_iff hsized (by decide)).mp h.within
  revert hfits
  decide +kernel

end SplitWriteF

end LazyFS
