import LazyFS.Guarantees.CrashFaults
import LazyFS.Model.Worker

/-!
**The commands that register a fault**, for every text.

* `lastValue`: the last value that a command gives to a key; the three loops of the worker compute
  it, as long as no value is malformed.
* `CrashText`, `TornOpText`, `TornSeqText`: what a command says, read off its text.
* `commands_handled_iff`: when a command is rejected with the tables unchanged, or names all it must
  and adds exactly the fault it describes; `command_throws` is a crash command without an operation.
-/

namespace LazyFS

open Program Lfs

variable {s : Lfs} {l : List (List Char)} {piece : List Char}

/-! ### The pieces of a command -/

/-- The last value that a command gives to a key. -/
def lastValue (key : String) (l : List (List Char)) : Option (List Char) :=
  (l.filterMap (valueOf key)).getLast?

/-- The last pattern that a command gives to a key; an empty text is none. -/
def lastPattern (key : String) (l : List (List Char)) : Option (List Char) :=
  (l.filterMap fun p => (valueOf key p).filter (· ≠ [])).getLast?

/-- Two keys neither of which starts with the other. -/
def Apart (key key' : String) : Prop := ¬ key.toList <+: key'.toList ∧ ¬ key'.toList <+: key.toList

instance (key key' : String) : Decidable (Apart key key') := inferInstanceAs (Decidable (_ ∧ _))

lemma valueOf_eq_none {key : String} (key' : String) {v : List Char}
    (h : valueOf key piece = some v) (hk : Apart key key') : valueOf key' piece = none := by
  rw [valueOf] at h ⊢
  split_ifs at h with h1
  rw [if_neg]
  intro h2
  rcases List.prefix_or_prefix_of_prefix h1 h2 with h3 | h3
  · exact hk.1 h3
  · exact hk.2 h3

/-- An attribute after the loop over the pieces. -/
lemma foldl_attribute {step : Attributes → List Char → Attributes} {π : Attributes → List Char}
    {g : List Char → Option (List Char)} (h : ∀ a p, π (step a p) = (g p).getD (π a))
    (l : List (List Char)) (a : Attributes) :
    π (l.foldl step a) = ((l.filterMap g).getLast?).getD (π a) := by
  induction l generalizing a with
  | nil => rfl
  | cons p l ih =>
      rw [List.foldl_cons, ih, h, List.filterMap_cons]
      cases hg : g p with
      | none => rfl
      | some v =>
          rw [List.getLast?_cons]
          rfl

/-- There is no error after the loop exactly when no piece is bad. -/
lemma foldl_errors {step : Attributes → List Char → Attributes} {bad : List Char → Prop}
    (h : ∀ a p, (step a p).errors = [] ↔ a.errors = [] ∧ ¬ bad p) (l : List (List Char))
    (a : Attributes) : (l.foldl step a).errors = [] ↔ a.errors = [] ∧ ∀ p ∈ l, ¬ bad p := by
  induction l generalizing a with
  | nil => simp
  | cons p l ih =>
      rw [List.foldl_cons, ih, h, List.forall_mem_cons, and_assoc]

/-- A check that every value passes leaves the values alone. -/
lemma filterMap_valueOf {key : String} {ok : List Char → Bool}
    (h : ∀ p ∈ l, ∀ v, valueOf key p = some v → ok v = true) :
    l.filterMap (fun p => (valueOf key p).filter ok) = l.filterMap (valueOf key) := by
  refine List.filterMap_congr fun p hp => ?_
  cases hv : valueOf key p with
  | none => rfl
  | some v => rw [Option.filter_some, if_pos (h p hp v hv)]

lemma Lfs.Attributes.errors_err (a : Attributes) (e : String) : (a.err e).errors ≠ [] := by
  simp [Attributes.err]

/-! ### Numbers -/

/-- The number that a text of digits stands for. -/
def textValue (v : List Char) : ℕ := Nat.ofDigitChars 10 v 0

/-- The number fits an `int`. -/
def Fits (v : List Char) : Prop := textValue v < 2 ^ 31

/-- The numbers between the commas. -/
def listValue (v : List Char) : List ℤ := (v.splitOn ',').map fun n => (textValue n : ℤ)

/-- The numbers between the commas fit an `int`. -/
def ListFits (v : List Char) : Prop := ∀ n ∈ v.splitOn ',', Fits n

instance (v : List Char) : Decidable (Fits v) := inferInstanceAs (Decidable (_ < _))

instance (v : List Char) : Decidable (ListFits v) := inferInstanceAs (Decidable (∀ n ∈ _, Fits n))

lemma stoi_eq (v : List Char) : stoi v = if Fits v then some (textValue v : ℤ) else none := rfl

lemma mapM_stoi (l : List (List Char)) :
    l.mapM stoi = if ∀ n ∈ l, Fits n then some (l.map fun n => (textValue n : ℤ)) else none := by
  induction l with
  | nil => rfl
  | cons v l ih =>
      rw [List.mapM_cons, stoi_eq, ih]
      by_cases hv : Fits v
      · by_cases hl : ∀ n ∈ l, Fits n
        · rw [if_pos hv, if_pos hl, if_pos (List.forall_mem_cons.mpr ⟨hv, hl⟩)]
          rfl
        · rw [if_pos hv, if_neg hl, if_neg fun h => hl (List.forall_mem_cons.mp h).2]
          rfl
      · rw [if_neg hv, if_neg fun h => hv (List.forall_mem_cons.mp h).1]
        rfl

/-- Where all characters but the commas are digits, the parts between the commas are those between
the other characters. -/
lemma splitOnP_notDigit {v : List Char} (h : ∀ n ∈ v.splitOn ',', n.all Char.isDigit = true) :
    v.splitOnP (fun c => !c.isDigit) = v.splitOn ',' := by
  induction v with
  | nil => rfl
  | cons c v ih =>
      rw [List.splitOn_cons_eq_if_modifyHead] at h ⊢
      rw [List.splitOnP_cons_eq_if_modifyHead]
      by_cases hc : c = ','
      · subst hc
        rw [if_pos (by decide)] at h ⊢
        rw [if_pos (by decide), ih fun n hn => h n (List.mem_cons_of_mem _ hn)]
      · have hne : (c == ',') = false := beq_eq_false_iff_ne.mpr hc
        rw [hne, if_neg Bool.false_ne_true] at h ⊢
        obtain ⟨n, ns, hns⟩ := List.exists_cons_of_ne_nil (List.splitOn_ne_nil ',' v)
        rw [hns, List.modifyHead_cons, List.forall_mem_cons, List.all_cons, Bool.and_eq_true] at h
        obtain ⟨⟨hdigit, hn⟩, htail⟩ := h
        have hrest : v.splitOnP (fun c => !c.isDigit) = v.splitOn ',' := by
          refine ih ?_
          rw [hns]
          exact List.forall_mem_cons.mpr ⟨hn, htail⟩
        rw [hdigit, if_neg (by decide), hrest]

lemma numbers_of_isNumberList {v : List Char} (h : isNumberList v = true) :
    numbers v = if ListFits v then some (listValue v) else none := by
  have hall : ∀ n ∈ v.splitOn ',', isNumber n = true := List.all_eq_true.mp h
  simp only [isNumber, Bool.and_eq_true] at hall
  rw [numbers, splitOnP_notDigit fun n hn => (hall n hn).2,
    List.filter_eq_self.mpr fun n hn => (hall n hn).1, mapM_stoi]
  rfl

/-- The numbers of an attribute that is given or not. -/
lemma numbers_getD {o : Option (List Char)} (ho : ∀ v ∈ o, isNumberList v = true) :
    numbers (o.getD "none".toList)
      = if ∀ v ∈ o, ListFits v then some ((o.map listValue).getD []) else none := by
  cases o with
  | none => decide
  | some v => simpa using numbers_of_isNumberList (ho v rfl)

/-- The number of an attribute that is given or not. -/
lemma numberOr_getD {o : Option (List Char)} (ho : ∀ v ∈ o, isNumber v = true) (dflt : ℤ) :
    numberOr dflt (o.getD "none".toList)
      = if ∀ v ∈ o, Fits v then some ((o.map fun v => (textValue v : ℤ)).getD dflt) else none := by
  cases o with
  | none => simp [numberOr]
  | some v =>
      have hne : v ≠ "none".toList := by
        rintro rfl
        exact absurd (ho _ rfl) (by decide)
      rw [numberOr, Option.getD_some, if_neg hne, stoi_eq]
      simp

/-! ### What a piece does -/

/-- A key with the check on its values. -/
abbrev Check := String × (List Char → Bool)

/-- The piece has a value that its check refuses, or is neither an attribute nor a word of the
command. -/
def BadPiece (checks : List Check) (words : List (List Char)) (piece : List Char) : Prop :=
  (∃ c ∈ checks, ∃ v ∈ valueOf c.1 piece, c.2 v = false) ∨
    ((∀ c ∈ checks, valueOf c.1 piece = none) ∧ piece ∉ words)

/-- The check on a text that may not be empty. -/
def notEmpty (v : List Char) : Bool := v ≠ []

/-- The attributes of a torn-op command. -/
def tornOpChecks : List Check :=
  [("file=", notEmpty), ("parts=", isNumber), ("parts_bytes=", isNumberList),
    ("persist=", isNumberList), ("occurrence=", isNumber)]

/-- The attributes of a torn-seq command. -/
def tornSeqChecks : List Check :=
  [("file=", notEmpty), ("op=", notEmpty), ("persist=", isNumberList), ("occurrence=", isNumber)]

/-- A piece of a torn-op command. -/
lemma tornOpPiece_spec (a : Attributes) (p : List Char) :
    (tornOpPiece a p).file = ((valueOf "file=" p).filter notEmpty).getD a.file ∧
    (tornOpPiece a p).parts = ((valueOf "parts=" p).filter isNumber).getD a.parts ∧
    (tornOpPiece a p).partsBytes = ((valueOf "parts_bytes=" p).filter isNumberList).getD
      a.partsBytes ∧
    (tornOpPiece a p).persist = ((valueOf "persist=" p).filter isNumberList).getD a.persist ∧
    (tornOpPiece a p).occurrence = ((valueOf "occurrence=" p).filter isNumber).getD a.occurrence ∧
    ((tornOpPiece a p).errors = [] ↔
      a.errors = [] ∧ ¬ BadPiece tornOpChecks ["lazyfs".toList, "torn-op".toList] p) := by
  rw [tornOpPiece, BadPiece, tornOpChecks]
  -- a piece gives at most one attribute
  cases h1 : valueOf "file=" p with
  | some v =>
      have h2 := valueOf_eq_none "parts=" h1 (by decide)
      have h3 := valueOf_eq_none "parts_bytes=" h1 (by decide)
      have h4 := valueOf_eq_none "persist=" h1 (by decide)
      have h5 := valueOf_eq_none "occurrence=" h1 (by decide)
      by_cases hv : v = [] <;>
        simp [h1, h2, h3, h4, h5, hv, notEmpty, Option.filter_some, Attributes.err]
  | none =>
  cases h2 : valueOf "parts=" p with
  | some v =>
      have h3 := valueOf_eq_none "parts_bytes=" h2 (by decide)
      have h4 := valueOf_eq_none "persist=" h2 (by decide)
      have h5 := valueOf_eq_none "occurrence=" h2 (by decide)
      by_cases hv : isNumber v = true <;>
        simp [h1, h2, h3, h4, h5, hv, Option.filter_some, Attributes.err]
  | none =>
  cases h3 : valueOf "parts_bytes=" p with
  | some v =>
      have h4 := valueOf_eq_none "persist=" h3 (by decide)
      have h5 := valueOf_eq_none "occurrence=" h3 (by decide)
      by_cases hv : isNumberList v = true <;>
        simp [h1, h2, h3, h4, h5, hv, Option.filter_some, Attributes.err]
  | none =>
  cases h4 : valueOf "persist=" p with
  | some v =>
      have h5 := valueOf_eq_none "occurrence=" h4 (by decide)
      by_cases hv : isNumberList v = true <;>
        simp [h1, h2, h3, h4, h5, hv, Option.filter_some, Attributes.err]
  | none =>
  cases h5 : valueOf "occurrence=" p with
  | some v => by_cases hv : isNumber v = true <;>
        simp [h1, h2, h3, h4, h5, hv, Option.filter_some, Attributes.err]
  | none =>
      generalize "lazyfs".toList = w
      generalize "torn-op".toList = w'
      by_cases hp : p ≠ w ∧ p ≠ w'
      · rw [if_pos hp]
        simp [h1, h2, h3, h4, h5, hp, Attributes.err]
      · rw [if_neg hp]
        simp [h1, h2, h3, h4, h5]
        tauto

/-- A piece of a torn-seq command. -/
lemma tornSeqPiece_spec (a : Attributes) (p : List Char) :
    (tornSeqPiece a p).file = ((valueOf "file=" p).filter notEmpty).getD a.file ∧
    (tornSeqPiece a p).op = ((valueOf "op=" p).filter notEmpty).getD a.op ∧
    (tornSeqPiece a p).persist = ((valueOf "persist=" p).filter isNumberList).getD a.persist ∧
    (tornSeqPiece a p).occurrence = ((valueOf "occurrence=" p).filter isNumber).getD a.occurrence ∧
    ((tornSeqPiece a p).errors = [] ↔
      a.errors = [] ∧ ¬ BadPiece tornSeqChecks ["lazyfs".toList, "torn-seq".toList] p) := by
  rw [tornSeqPiece, BadPiece, tornSeqChecks]
  -- a piece gives at most one attribute
  cases h1 : valueOf "file=" p with
  | some v =>
      have h2 := valueOf_eq_none "op=" h1 (by decide)
      have h3 := valueOf_eq_none "persist=" h1 (by decide)
      have h4 := valueOf_eq_none "occurrence=" h1 (by decide)
      by_cases hv : v = [] <;>
        simp [h1, h2, h3, h4, hv, notEmpty, Option.filter_some, Attributes.err]
  | none =>
  cases h2 : valueOf "op=" p with
  | some v =>
      have h3 := valueOf_eq_none "persist=" h2 (by decide)
      have h4 := valueOf_eq_none "occurrence=" h2 (by decide)
      by_cases hv : v = [] <;>
        simp [h1, h2, h3, h4, hv, notEmpty, Option.filter_some, Attributes.err]
  | none =>
  cases h3 : valueOf "persist=" p with
  | some v =>
      have h4 := valueOf_eq_none "occurrence=" h3 (by decide)
      by_cases hv : isNumberList v = true <;>
        simp [h1, h2, h3, h4, hv, Option.filter_some, Attributes.err]
  | none =>
  cases h4 : valueOf "occurrence=" p with
  | some v => by_cases hv : isNumber v = true <;>
        simp [h1, h2, h3, h4, hv, Option.filter_some, Attributes.err]
  | none =>
      generalize "lazyfs".toList = w
      generalize "torn-seq".toList = w'
      by_cases hp : p ≠ w ∧ p ≠ w'
      · rw [if_pos hp]
        simp [h1, h2, h3, h4, hp, Attributes.err]
      · rw [if_neg hp]
        simp [h1, h2, h3, h4]
        tauto

/-- The piece gives an operation or a timing that is not allowed. -/
def BadCrashPiece (piece : List Char) : Prop :=
  (∃ v ∈ valueOf "op=" piece, String.ofList v ∉ allowCrashFsOperations) ∨
    ∃ v ∈ valueOf "timing=" piece, v ≠ "before".toList ∧ v ≠ "after".toList

/-- A piece of a crash command. -/
lemma crashPiece_spec (a : Attributes) (p : List Char) :
    (crashPiece a p).op
      = ((valueOf "op=" p).filter fun v => String.ofList v ∈ allowCrashFsOperations).getD a.op ∧
    (crashPiece a p).timing = ((valueOf "timing=" p).filter
      fun v => v = "before".toList ∨ v = "after".toList).getD a.timing ∧
    (crashPiece a p).fromRgx = ((valueOf "from_rgx=" p).filter (· ≠ [])).getD a.fromRgx ∧
    (crashPiece a p).toRgx = ((valueOf "to_rgx=" p).filter (· ≠ [])).getD a.toRgx ∧
    ((crashPiece a p).errors = [] ↔ a.errors = [] ∧ ¬ BadCrashPiece p) := by
  rw [crashPiece, BadCrashPiece]
  -- a piece gives at most one attribute
  cases h1 : valueOf "op=" p with
  | some v =>
      rw [valueOf_eq_none "timing=" h1 (by decide),
        valueOf_eq_none "from_rgx=" h1 (by decide),
        valueOf_eq_none "to_rgx=" h1 (by decide), Option.filter_some]
      dsimp only
      by_cases hv : String.ofList v ∈ allowCrashFsOperations
      · have hne : v ≠ [] := by
          rintro rfl
          exact absurd hv (by decide)
        rw [if_pos ⟨hne, hv⟩, if_pos (decide_eq_true hv)]
        refine ⟨rfl, rfl, rfl, rfl, fun h => ⟨h, ?_⟩, fun h => h.1⟩
        rintro (⟨u, hu, hbad⟩ | ⟨u, hu, -⟩)
        · cases hu
          exact hbad hv
        · cases hu
      · rw [if_neg fun h => hv h.2, if_neg fun h => hv (of_decide_eq_true h)]
        exact ⟨rfl, rfl, rfl, rfl, fun h => absurd h (a.errors_err _),
          fun h => absurd (.inl ⟨v, rfl, hv⟩) h.2⟩
  | none =>
  cases h2 : valueOf "timing=" p with
  | some v =>
      rw [valueOf_eq_none "from_rgx=" h2 (by decide),
        valueOf_eq_none "to_rgx=" h2 (by decide), Option.filter_some]
      dsimp only
      by_cases hv : v = "before".toList ∨ v = "after".toList
      · rw [if_pos hv, if_pos (decide_eq_true hv)]
        refine ⟨rfl, rfl, rfl, rfl, fun h => ⟨h, ?_⟩, fun h => h.1⟩
        rintro (⟨u, hu, -⟩ | ⟨u, hu, hbefore, hafter⟩)
        · cases hu
        · cases hu
          exact hv.elim hbefore hafter
      · rw [if_neg hv, if_neg fun h => hv (of_decide_eq_true h)]
        exact ⟨rfl, rfl, rfl, rfl, fun h => absurd h (a.errors_err _),
          fun h => absurd (.inr ⟨v, rfl, not_or.mp hv⟩) h.2⟩
  | none =>
      -- the patterns are taken as they are
      have hgood : a.errors = [] ↔ a.errors = [] ∧ ¬ ((∃ v ∈ (none : Option (List Char)),
          String.ofList v ∉ allowCrashFsOperations) ∨
            ∃ v ∈ (none : Option (List Char)), v ≠ "before".toList ∧ v ≠ "after".toList) := by
        refine ⟨fun h => ⟨h, ?_⟩, fun h => h.1⟩
        rintro (⟨u, hu, -⟩ | ⟨u, hu, -⟩)
        · cases hu
        · cases hu
      cases h3 : valueOf "from_rgx=" p with
      | some v =>
          rw [valueOf_eq_none "to_rgx=" h3 (by decide), Option.filter_some]
          dsimp only
          by_cases hv : v ≠ []
          · rw [if_pos hv, if_pos (decide_eq_true hv)]
            exact ⟨rfl, rfl, rfl, rfl, hgood⟩
          · rw [if_neg hv, if_neg fun h => hv (of_decide_eq_true h)]
            exact ⟨rfl, rfl, rfl, rfl, hgood⟩
      | none =>
          cases h4 : valueOf "to_rgx=" p with
          | some v =>
              rw [Option.filter_some]
              dsimp only
              by_cases hv : v ≠ []
              · rw [if_pos hv, if_pos (decide_eq_true hv)]
                exact ⟨rfl, rfl, rfl, rfl, hgood⟩
              · rw [if_neg hv, if_neg fun h => hv (of_decide_eq_true h)]
                exact ⟨rfl, rfl, rfl, rfl, hgood⟩
          | none => exact ⟨rfl, rfl, rfl, rfl, hgood⟩

/-! ### What a command describes -/

/-- The tables of crash faults have every operation, as the constructor makes them. -/
def FullTables (s : Lfs) : Prop :=
  ∀ timing, ∀ op ∈ allowCrashFsOperations, (s.crashFaultsAt timing op).isSome

lemma fullTables_new (fs : FS) (faults : Faults) : FullTables (Lfs.new fs faults) := by
  intro timing op hop
  rw [crashFaultsAt_new fs faults timing hop]
  rfl

/-- The command is reported, and nothing is registered. -/
def Rejected (r : EStateM.Result Halt Lfs (List String)) (s : Lfs) : Prop :=
  ∃ errors, r = .ok errors s ∧ errors ≠ []

lemma ofList_eq_none (v : List Char) : String.ofList v = "none" ↔ v = "none".toList := by
  constructor
  · intro h
    rw [← h, String.toList_ofList]
  · intro h
    rw [h, String.ofList_toList]

/-- What a crash command says. -/
structure CrashText where
  timing : Option (List Char)
  op : Option (List Char)
  fromRgx : Option (List Char)
  toRgx : Option (List Char)

namespace CrashText

/-- The values in the pieces of a command. -/
def of (l : List (List Char)) : CrashText :=
  ⟨lastValue "timing=" l, lastValue "op=" l, lastPattern "from_rgx=" l, lastPattern "to_rgx=" l⟩

/-- The parameters, `"none"` for one that is not given. -/
def args (t : CrashText) : CrashArgs :=
  ⟨String.ofList (t.timing.getD "none".toList), String.ofList (t.op.getD "none".toList),
    String.ofList (t.fromRgx.getD "none".toList), String.ofList (t.toRgx.getD "none".toList)⟩

/-- The patterns are those that the operation requires; the pattern `none` counts as not given. -/
def PatternsGiven (t : CrashText) : Prop :=
  (t.args.op ∈ fsOpMultiPath → t.args.fromRgx ≠ "none" ∨ t.args.toRgx ≠ "none") ∧
    (t.args.op ∉ fsOpMultiPath → t.args.fromRgx ≠ "none" ∧ t.args.toRgx = "none")

/-- The command is rejected, or it names all it must and exactly its fault is added. -/
def Handled (t : CrashText) (r : EStateM.Result Halt Lfs (List String)) (s : Lfs) : Prop :=
  Rejected r s ∨ (t.timing.isSome ∧ t.op.isSome ∧ t.args.Valid ∧
    r = .ok [] (s.arm t.args.timing t.args.op t.args.fromRgx t.args.toRgx))

/-- The attributes after the loop over pieces that are all good. -/
lemma foldl_eq (hgood : ∀ p ∈ l, ¬ BadCrashPiece p) :
    (l.foldl crashPiece {}).op = (of l).op.getD "none".toList ∧
    (l.foldl crashPiece {}).timing = (of l).timing.getD "none".toList ∧
    (l.foldl crashPiece {}).fromRgx = (of l).fromRgx.getD "none".toList ∧
    (l.foldl crashPiece {}).toRgx = (of l).toRgx.getD "none".toList := by
  have hop := foldl_attribute (fun a p => (crashPiece_spec a p).1) l {}
  have htiming := foldl_attribute (fun a p => (crashPiece_spec a p).2.1) l {}
  rw [filterMap_valueOf fun p hp v hv => by
    by_contra hbad
    exact hgood p hp (.inl ⟨v, hv, by simpa using hbad⟩)] at hop
  rw [filterMap_valueOf fun p hp v hv => by
    by_contra hbad
    rw [decide_eq_true_eq, not_or] at hbad
    exact hgood p hp (.inr ⟨v, hv, hbad⟩)] at htiming
  exact ⟨hop, htiming, foldl_attribute (fun a p => (crashPiece_spec a p).2.2.1) l {},
    foldl_attribute (fun a p => (crashPiece_spec a p).2.2.2.1) l {}⟩

/-- The checks on the patterns find no error. -/
lemma errors_checkCrash (hgood : ∀ p ∈ l, ¬ BadCrashPiece p) :
    (checkCrash (l.foldl crashPiece {})).errors = [] ↔ (of l).PatternsGiven := by
  have herr := (foldl_errors (fun a p => (crashPiece_spec a p).2.2.2.2) l {}).mpr ⟨rfl, hgood⟩
  obtain ⟨hop, -, hfrom, hto⟩ := foldl_eq hgood
  have hop' : (of l).args.op = String.ofList (l.foldl crashPiece {}).op := by rw [hop]; rfl
  have hfrom' : (of l).args.fromRgx = String.ofList (l.foldl crashPiece {}).fromRgx := by
    rw [hfrom]; rfl
  have hto' : (of l).args.toRgx = String.ofList (l.foldl crashPiece {}).toRgx := by rw [hto]; rfl
  rw [PatternsGiven, hop', hfrom', hto', ne_eq, ne_eq, ofList_eq_none, ofList_eq_none]
  generalize l.foldl crashPiece {} = a at herr
  rw [checkCrash]
  by_cases hm : String.ofList a.op ∈ fsOpMultiPath
  · rw [if_pos hm]
    split_ifs with hno
    · exact ⟨fun h => absurd h (a.errors_err _), fun h => absurd hno (not_and_or.mpr (h.1 hm))⟩
    · exact ⟨fun _ => ⟨fun _ => not_and_or.mp hno, fun h => absurd hm h⟩, fun _ => herr⟩
  · rw [if_neg hm]
    split_ifs with hno
    · refine ⟨fun h => absurd h (a.errors_err _), fun h => absurd hno ?_⟩
      rw [not_or, ne_eq, not_not]
      exact h.2 hm
    · rw [not_or, ne_eq, not_not] at hno
      exact ⟨fun _ => ⟨fun h => absurd h hm, fun _ => hno⟩, fun _ => herr⟩

/-- A value that is given is in one of the pieces. -/
lemma exists_piece {key : String} {v : List Char} (h : lastValue key l = some v) :
    ∃ p ∈ l, valueOf key p = some v := List.mem_filterMap.mp (List.mem_of_getLast? h)

/-- A command without a bad piece that gives all it must is valid. -/
lemma valid (hgood : ∀ p ∈ l, ¬ BadCrashPiece p) (hpat : (of l).PatternsGiven)
    (ht : (of l).timing.isSome) (ho : (of l).op.isSome) : (of l).args.Valid := by
  obtain ⟨timing, htiming⟩ := Option.isSome_iff_exists.mp ht
  obtain ⟨op, hop⟩ := Option.isSome_iff_exists.mp ho
  obtain ⟨p, hp, hpv⟩ := exists_piece htiming
  obtain ⟨q, hq, hqv⟩ := exists_piece hop
  refine ⟨?_, ?_, hpat.1, hpat.2⟩
  · rw [args, htiming, Option.getD_some]
    by_contra hbad
    rw [not_or] at hbad
    refine hgood p hp (.inr ⟨timing, hpv, ?_, ?_⟩)
    · rintro rfl
      exact hbad.1 rfl
    · rintro rfl
      exact hbad.2 rfl
  · rw [args, hop, Option.getD_some]
    by_contra hbad
    exact hgood q hq (.inl ⟨op, hqv, hbad⟩)

/-- The command is reported by one of the checks, or names both a timing and an operation. -/
def Sound (l : List (List Char)) : Prop :=
  (∃ p ∈ l, BadCrashPiece p) ∨ ¬ (of l).PatternsGiven ∨ ((of l).timing.isSome ∧ (of l).op.isSome)

/-- **Crash commands**: a command is handled exactly when it is sound. -/
lemma handled_iff (hs : FullTables s) (command : List Char) :
    (of (splitPieces command)).Handled (fhtWorkerCrash command s) s ↔
    Sound (splitPieces command) := by
  rw [Sound]
  set l := splitPieces command with hl
  have hrun : fhtWorkerCrash command s
      = if (checkCrash (l.foldl crashPiece {})).errors = [] then
          (do
            addCrashFault (String.ofList (checkCrash (l.foldl crashPiece {})).timing)
              (String.ofList (checkCrash (l.foldl crashPiece {})).op)
              (String.ofList (checkCrash (l.foldl crashPiece {})).fromRgx)
              (String.ofList (checkCrash (l.foldl crashPiece {})).toRgx)
            pure [] : FaultM (List String)) s
        else .ok (checkCrash (l.foldl crashPiece {})).errors s := by
    rw [fhtWorkerCrash]
    rw [← hl]
    split_ifs <;> rfl
  -- an error of the pieces or of the check is reported
  have hreject : (checkCrash (l.foldl crashPiece {})).errors ≠ [] →
      Rejected (fhtWorkerCrash command s) s := fun hne => ⟨_, by rw [hrun, if_neg hne], hne⟩
  by_cases hbad : ∃ p ∈ l, BadCrashPiece p
  · refine iff_of_true (.inl (hreject fun hnil => ?_)) (.inl hbad)
    obtain ⟨p, hp, hpb⟩ := hbad
    have hnil' : (l.foldl crashPiece {}).errors = [] := by
      rw [checkCrash] at hnil
      split_ifs at hnil <;> first | exact hnil | exact absurd hnil (Attributes.errors_err _ _)
    exact ((foldl_errors (fun a p => (crashPiece_spec a p).2.2.2.2) l {}).mp hnil').2 p hp hpb
  have hgood : ∀ p ∈ l, ¬ BadCrashPiece p := fun p hp hb => hbad ⟨p, hp, hb⟩
  -- the check passes exactly for the patterns that the operation takes
  by_cases hpat : (of l).PatternsGiven
  swap
  · exact iff_of_true (.inl (hreject (mt (errors_checkCrash hgood).mp hpat))) (.inr (.inl hpat))
  rw [if_pos ((errors_checkCrash hgood).mpr hpat)] at hrun
  -- what is registered is what the command says
  have hargs : (String.ofList (checkCrash (l.foldl crashPiece {})).timing,
      String.ofList (checkCrash (l.foldl crashPiece {})).op,
      String.ofList (checkCrash (l.foldl crashPiece {})).fromRgx,
      String.ofList (checkCrash (l.foldl crashPiece {})).toRgx)
      = ((of l).args.timing, (of l).args.op, (of l).args.fromRgx, (of l).args.toRgx) := by
    obtain ⟨h1, h2, h3, h4⟩ := foldl_eq hgood
    have hsame : checkCrash (l.foldl crashPiece {}) = l.foldl crashPiece {} ∨
        (checkCrash (l.foldl crashPiece {})).errors ≠ [] := by
      rw [checkCrash]
      split_ifs <;> first | exact .inl rfl | exact .inr (Attributes.errors_err _ _)
    rw [hsame.resolve_right (not_not.mpr ((errors_checkCrash hgood).mpr hpat)), h1, h2, h3, h4]
    rfl
  simp only [Prod.mk.injEq] at hargs
  rw [hargs.1, hargs.2.1, hargs.2.2.1, hargs.2.2.2] at hrun
  constructor
  · rintro (⟨errors, hok, hne⟩ | ⟨ht, ho, -, -⟩)
    · rw [hrun] at hok
      simp only [bind, EStateM.bind] at hok
      cases hadd : addCrashFault (of l).args.timing (of l).args.op (of l).args.fromRgx
          (of l).args.toRgx s with
      | ok u s' =>
          rw [hadd] at hok
          cases hok
          exact absurd rfl hne
      | error e s' =>
          rw [hadd] at hok
          cases hok
    · exact .inr (.inr ⟨ht, ho⟩)
  · rintro (hb | hp | ⟨ht, ho⟩)
    · exact absurd hb hbad
    · exact absurd hpat hp
    · -- the fault goes to the table of its timing and operation
      have hvalid := valid hgood hpat ht ho
      refine .inr ⟨ht, ho, hvalid, ?_⟩
      rw [hrun]
      simp only [bind, EStateM.bind, addCrashFault_eq (hs _ _ hvalid.op)]
      rfl

end CrashText

/-! ### Commands for torn writes -/

/-- The state with one fault more for a path. -/
def Lfs.withFault (s : Lfs) (path : String) (fault : Fault) : Lfs :=
  { s with faults := s.faults.set path (faultsOf s.faults path ++ [fault]) }

/-- What a command for a torn write describes: the fault and the path it is for, what `validate`
says of it, and what is wrong or missing in the text. -/
structure TornText where
  path : String
  fault : Fault
  sameKind : Fault → Bool
  invalid : List String
  /-- A piece is bad, or none says how the write is torn. -/
  Malformed : Prop
  /-- Every number fits an `int`. -/
  Fits : Prop
  /-- All that the fault needs is given, once. -/
  Complete : Prop

namespace TornText

variable {t : TornText} {r : EStateM.Result Halt Lfs (List String)}

/-- The path has a fault of the kind. -/
def Taken (t : TornText) (s : Lfs) : Prop := (faultsOf s.faults t.path).any t.sameKind = true

/-- The command is rejected, or it names all it must and exactly its fault is added. -/
def Handled (t : TornText) (r : EStateM.Result Halt Lfs (List String)) (s : Lfs) : Prop :=
  Rejected r s ∨ (t.Complete ∧ ¬ t.Malformed ∧ t.Fits ∧ t.invalid = [] ∧
    r = .ok [] (s.withFault t.path t.fault))

/-- The command is reported by one of the checks, or all its numbers fit an `int` and it is
complete. -/
def Sound (t : TornText) (s : Lfs) : Prop :=
  t.Malformed ∨ (t.Fits ∧ (t.invalid ≠ [] ∨ t.Taken s ∨ t.Complete))

/-- The end of `add_torn_op_fault` and `add_torn_seq_fault`. -/
lemma addFault_eq (path : String) (fault : Fault) (sameKind : Fault → Bool) (onlyOne : String) :
    (∃ errors, addFault path fault sameKind onlyOne s = .ok errors s ∧ errors ≠ [] ∧
        (faultsOf s.faults path).any sameKind = true) ∨
      (addFault path fault sameKind onlyOne s = .ok [] (s.withFault path fault) ∧
        (faultsOf s.faults path).any sameKind = false) := by
  have hget : (get : FaultM Lfs) = fun s => .ok s s := rfl
  rw [faultsOf, withFault, faultsOf]
  cases hv : s.faults.lookup path with
  | none =>
      have hadd : addFault path fault sameKind onlyOne s
          = .ok [] { s with faults := s.faults.insertNew path [fault] } := by
        rw [addFault, hget]
        simp only [bind, EStateM.bind, hv]
        rfl
      refine .inr ⟨?_, rfl⟩
      rw [hadd, Map.insertNew_of_none _ _ hv]
      rfl
  | some v =>
      have hadd : addFault path fault sameKind onlyOne s
          = (if v.any sameKind then pure ((v.filter sameKind).map fun _ => onlyOne)
            else do
              modify fun s : Lfs => { s with faults := s.faults.set path (v ++ [fault]) }
              pure [] : FaultM (List String)) s := by
        rw [addFault, hget]
        simp only [bind, EStateM.bind, hv]
      rw [hadd]
      dsimp only [Option.getD_some]
      by_cases hany : v.any sameKind = true
      · refine .inl ⟨(v.filter sameKind).map fun _ => onlyOne, by rw [if_pos hany]; rfl, ?_, hany⟩
        obtain ⟨x, hx, hxk⟩ := List.any_eq_true.mp hany
        have hmem : x ∈ v.filter sameKind := List.mem_filter.mpr ⟨hx, hxk⟩
        exact List.ne_nil_of_mem (List.mem_map_of_mem hmem)
      · exact .inr ⟨by rw [if_neg hany]; rfl, by simpa using hany⟩

/-- **A command for a torn write** is handled exactly when it is sound. -/
lemma handled_iff (onlyOne : String) (hbad : t.Malformed → Rejected r s)
    (hthrow : ¬ t.Malformed → ¬ t.Fits → r = .error .exception s)
    (hinvalid : ¬ t.Malformed → t.Fits → t.invalid ≠ [] → r = .ok t.invalid s)
    (hrun : ¬ t.Malformed → t.Fits → t.invalid = [] →
      r = addFault t.path t.fault t.sameKind onlyOne s) :
    t.Handled r s ↔ t.Sound s := by
  rw [Handled, Sound]
  by_cases hm : t.Malformed
  · exact iff_of_true (.inl (hbad hm)) (.inl hm)
  by_cases hf : t.Fits
  swap
  · refine iff_of_false ?_ fun h => h.elim hm fun h => hf h.1
    rintro (⟨errors, hok, -⟩ | ⟨-, -, h, -⟩)
    · rw [hthrow hm hf] at hok
      cases hok
    · exact hf h
  by_cases hi : t.invalid = []
  swap
  · exact iff_of_true (.inl ⟨_, hinvalid hm hf hi, hi⟩) (.inr ⟨hf, .inl hi⟩)
  rw [hrun hm hf hi]
  rcases addFault_eq (s := s) t.path t.fault t.sameKind onlyOne with ⟨errors, hadd, hne,
    hany⟩ | ⟨hadd, hany⟩
  · exact iff_of_true (.inl ⟨errors, hadd, hne⟩) (.inr ⟨hf, .inr (.inl hany)⟩)
  · rw [hadd]
    constructor
    · rintro (⟨errors, hok, hne⟩ | ⟨hc, -⟩)
      · exact absurd (EStateM.Result.ok.inj hok).1.symm hne
      · exact .inr ⟨hf, .inr (.inr hc)⟩
    · rintro (h | ⟨-, h | h | h⟩)
      · exact absurd h hm
      · exact absurd hi h
      · rw [Taken, hany] at h
        cases h
      · exact .inr ⟨h, hm, hf, hi, rfl⟩

end TornText

/-- The number of an attribute, or a default. -/
def numberGiven (dflt : ℤ) (o : Option (List Char)) : ℤ :=
  (o.map fun v => (textValue v : ℤ)).getD dflt

/-- The numbers of an attribute, none when it is not given. -/
def listGiven (o : Option (List Char)) : List ℤ := (o.map listValue).getD []

/-- The path of a command; a command without one is for the path `none`. -/
def pathGiven (l : List (List Char)) : String :=
  String.ofList ((lastValue "file=" l).getD "none".toList)

/-- What a torn-op command describes: the parts go by their number when both are given. -/
def tornOpText (l : List (List Char)) : TornText where
  path := pathGiven l
  fault :=
    match lastValue "parts=" l with
    | some v => .splitWrite (.ofParts (numberGiven 1 (lastValue "occurrence=" l))
        (listGiven (lastValue "persist=" l)) (textValue v))
    | none => .splitWrite (.ofPartsBytes (numberGiven 1 (lastValue "occurrence=" l))
        (listGiven (lastValue "persist=" l)) (listGiven (lastValue "parts_bytes=" l)))
  sameKind := isSplitWrite
  invalid :=
    match lastValue "parts=" l with
    | some v => SplitWriteF.validate (numberGiven 1 (lastValue "occurrence=" l))
        (listGiven (lastValue "persist=" l)) (some (textValue v)) none
    | none => SplitWriteF.validate (numberGiven 1 (lastValue "occurrence=" l))
        (listGiven (lastValue "persist=" l)) none (some (listGiven (lastValue "parts_bytes=" l)))
  Malformed := (∃ p ∈ l, BadPiece tornOpChecks ["lazyfs".toList, "torn-op".toList] p) ∨
    (lastValue "parts=" l = none ∧ lastValue "parts_bytes=" l = none)
  Fits := (∀ v ∈ lastValue "persist=" l, ListFits v) ∧
    (∀ v ∈ lastValue "parts_bytes=" l, ListFits v) ∧
    (∀ v ∈ lastValue "parts=" l, Fits v) ∧ ∀ v ∈ lastValue "occurrence=" l, Fits v
  Complete := (lastValue "file=" l).isSome ∧ (lastValue "persist=" l).isSome ∧
    ((lastValue "parts=" l).isSome ↔ lastValue "parts_bytes=" l = none)

/-- What a torn-seq command describes. -/
def tornSeqText (l : List (List Char)) : TornText where
  path := pathGiven l
  fault := .reorder { op := String.ofList ((lastValue "op=" l).getD "none".toList)
                      persist := listGiven (lastValue "persist=" l)
                      occurrence := numberGiven 1 (lastValue "occurrence=" l) }
  sameKind := isReorder
  invalid := ReorderF.validate { op := String.ofList ((lastValue "op=" l).getD "none".toList)
                                 persist := listGiven (lastValue "persist=" l)
                                 occurrence := numberGiven 1 (lastValue "occurrence=" l) }
  Malformed := ∃ p ∈ l, BadPiece tornSeqChecks ["lazyfs".toList, "torn-seq".toList] p
  Fits := (∀ v ∈ lastValue "persist=" l, ListFits v) ∧ ∀ v ∈ lastValue "occurrence=" l, Fits v
  Complete := (lastValue "file=" l).isSome ∧ (lastValue "op=" l).isSome ∧
    (lastValue "persist=" l).isSome

/-- Pieces that are all good pass every check. -/
lemma check_of_good {checks : List Check} {words : List (List Char)}
    (hgood : ∀ p ∈ l, ¬ BadPiece checks words p) {c : Check} (hc : c ∈ checks) :
    (∀ p ∈ l, ∀ v, valueOf c.1 p = some v → c.2 v = true) ∧ ∀ v ∈ lastValue c.1 l,
      c.2 v = true := by
  have hall : ∀ p ∈ l, ∀ v, valueOf c.1 p = some v → c.2 v = true := by
    intro p hp v hv
    by_contra hbad
    exact hgood p hp (.inl ⟨c, hc, v, hv, by simpa using hbad⟩)
  refine ⟨hall, fun v hv => ?_⟩
  obtain ⟨p, hp, hpv⟩ := CrashText.exists_piece hv
  exact hall p hp v hpv

/-- A checked attribute after the loop over pieces that are all good. -/
lemma foldl_checked {step : Attributes → List Char → Attributes} {π : Attributes → List Char}
    {checks : List Check} {words : List (List Char)} (hgood : ∀ p ∈ l, ¬ BadPiece checks words p)
    {c : Check} (hc : c ∈ checks)
    (h : ∀ a p, π (step a p) = ((valueOf c.1 p).filter c.2).getD (π a))
    (hnone : π {} = "none".toList) : π (l.foldl step {})
      = (lastValue c.1 l).getD "none".toList := by
  rw [foldl_attribute h, filterMap_valueOf (check_of_good hgood hc).1, hnone]
  rfl

/-- The numbers of `add_torn_seq_fault` are read. -/
lemma addTornSeqFault_eq {path op persist occurrence : List Char} {persistv : List ℤ}
    {occurrencei : ℤ} (hp : numbers persist = some persistv)
    (ho : numberOr 1 occurrence = some occurrencei) :
    addTornSeqFault path op persist occurrence s
      = (let fault : ReorderF :=
        { op := String.ofList op, persist := persistv, occurrence := occurrencei }
        if fault.validate = [] then
          addFault (String.ofList path) (.reorder fault) isReorder
            "Only one torn-seq fault per file is allowed." s
        else .ok fault.validate s) := by
  rw [addTornSeqFault]
  rw [hp, ho]
  simp only [orThrow, pure_bind]
  split_ifs <;> rfl

/-- A number of `add_torn_seq_fault` does not fit an `int`. -/
lemma addTornSeqFault_throws {path op persist occurrence : List Char}
    (h : numbers persist = none ∨ numberOr 1 occurrence = none) :
    addTornSeqFault path op persist occurrence s = .error .exception s := by
  rw [addTornSeqFault]
  cases hp : numbers persist with
  | none => rfl
  | some persistv =>
      rw [h.resolve_left (by rw [hp]; exact Option.some_ne_none _)]
      rfl

/-- The numbers of `add_torn_op_fault` are read. -/
lemma addTornOpFault_eq {path parts partsBytes persist occurrence : List Char}
    {persistv partsBytesV : List ℤ} {partsi occurrencei : ℤ} (hp : numbers persist = some persistv)
    (hb : (if partsBytes = "none".toList then some [] else numbers partsBytes) = some partsBytesV)
    (hn : numberOr (-1) parts = some partsi) (ho : numberOr 1 occurrence = some occurrencei) :
    addTornOpFault path parts partsBytes persist occurrence s
      = (let errors := if partsi ≠ -1 then
        SplitWriteF.validate occurrencei persistv (some partsi) none
          else SplitWriteF.validate occurrencei persistv none (some partsBytesV)
        if errors = [] then
          addFault (String.ofList path) (.splitWrite (if partsi ≠ -1 then
            .ofParts occurrencei persistv partsi
              else .ofPartsBytes occurrencei persistv partsBytesV))
            isSplitWrite "Only one torn-op fault per file is allowed." s
        else .ok errors s) := by
  rw [addTornOpFault]
  rw [hp, hb, hn, ho]
  simp only [orThrow, pure_bind]
  by_cases hne : partsi ≠ -1
  · simp only [if_pos hne]
    split_ifs <;> rfl
  · simp only [if_neg hne]
    split_ifs <;> rfl

/-- A number of `add_torn_op_fault` does not fit an `int`. -/
lemma addTornOpFault_throws {path parts partsBytes persist occurrence : List Char}
    (h : numbers persist = none ∨
      (if partsBytes = "none".toList then some [] else numbers partsBytes) = none ∨
      numberOr (-1) parts = none ∨ numberOr 1 occurrence = none) :
    addTornOpFault path parts partsBytes persist occurrence s = .error .exception s := by
  rw [addTornOpFault]
  cases hp : numbers persist with
  | none => rfl
  | some persistv =>
  cases hb : (if partsBytes = "none".toList then some [] else numbers partsBytes) with
  | none => rfl
  | some partsBytesV =>
  cases hn : numberOr (-1) parts with
  | none => rfl
  | some partsi =>
      rw [hp, hb, hn] at h
      rw [((h.resolve_left (Option.some_ne_none _)).resolve_left
        (Option.some_ne_none _)).resolve_left (Option.some_ne_none _)]
      rfl

/-- A value that is given is not the text for a missing one. -/
lemma getD_eq_none_iff {o : Option (List Char)} (h : ∀ v ∈ o, v ≠ "none".toList) :
    o.getD "none".toList = "none".toList ↔ o = none := by
  cases o with
  | none => exact iff_of_true rfl rfl
  | some v => exact iff_of_false (h v rfl) (Option.some_ne_none v)

/-- The fault goes by the number of its parts exactly when this is given. -/
lemma tornOpText_eq (l : List (List Char)) :
    (tornOpText l).invalid = (if numberGiven (-1) (lastValue "parts=" l) ≠ -1 then
        SplitWriteF.validate (numberGiven 1 (lastValue "occurrence=" l))
          (listGiven (lastValue "persist=" l)) (some (numberGiven (-1) (lastValue "parts=" l))) none
      else SplitWriteF.validate (numberGiven 1 (lastValue "occurrence=" l))
        (listGiven (lastValue "persist=" l)) none (some (listGiven (lastValue "parts_bytes=" l)))) ∧
    (tornOpText l).fault = .splitWrite (if numberGiven (-1) (lastValue "parts=" l) ≠ -1 then
        .ofParts (numberGiven 1 (lastValue "occurrence=" l)) (listGiven (lastValue "persist=" l))
          (numberGiven (-1) (lastValue "parts=" l))
      else .ofPartsBytes (numberGiven 1 (lastValue "occurrence=" l))
      (listGiven (lastValue "persist=" l))
        (listGiven (lastValue "parts_bytes=" l))) := by
  rw [tornOpText]
  cases lastValue "parts=" l with
  | none => exact ⟨rfl, rfl⟩
  | some v =>
      have hne : numberGiven (-1) (some v) ≠ -1 := by
        rw [numberGiven, Option.map_some, Option.getD_some]
        omega
      rw [if_pos hne, if_pos hne]
      exact ⟨rfl, rfl⟩

/-- What the pieces of a torn-op command fill in where none of them is reported: the attributes are
the last values given, and their numbers are read where they fit. -/
structure TornOpFilled (l : List (List Char)) (s : Lfs) : Prop where
  parts_none : (l.foldl tornOpPiece {}).parts = "none".toList ↔ lastValue "parts=" l = none
  partsBytes_none :
    (l.foldl tornOpPiece {}).partsBytes = "none".toList ↔ lastValue "parts_bytes=" l = none
  added : addTornOpFault (l.foldl tornOpPiece {}).file (l.foldl tornOpPiece {}).parts
      (l.foldl tornOpPiece {}).partsBytes (l.foldl tornOpPiece {}).persist
      (l.foldl tornOpPiece {}).occurrence s
    = addTornOpFault ((lastValue "file=" l).getD "none".toList)
        ((lastValue "parts=" l).getD "none".toList)
        ((lastValue "parts_bytes=" l).getD "none".toList)
        ((lastValue "persist=" l).getD "none".toList)
        ((lastValue "occurrence=" l).getD "none".toList) s
  persist : numbers ((lastValue "persist=" l).getD "none".toList)
    = if ∀ v ∈ lastValue "persist=" l, ListFits v
        then some (listGiven (lastValue "persist=" l)) else none
  partsBytes : (if (lastValue "parts_bytes=" l).getD "none".toList = "none".toList then some []
      else numbers ((lastValue "parts_bytes=" l).getD "none".toList))
    = if ∀ v ∈ lastValue "parts_bytes=" l, ListFits v
        then some (listGiven (lastValue "parts_bytes=" l)) else none
  parts : numberOr (-1) ((lastValue "parts=" l).getD "none".toList)
    = if ∀ v ∈ lastValue "parts=" l, Fits v
        then some (numberGiven (-1) (lastValue "parts=" l)) else none
  occurrence : numberOr 1 ((lastValue "occurrence=" l).getD "none".toList)
    = if ∀ v ∈ lastValue "occurrence=" l, Fits v
        then some (numberGiven 1 (lastValue "occurrence=" l)) else none

lemma tornOpFilled {l : List (List Char)} (s : Lfs)
    (hgood : ∀ p ∈ l, ¬ BadPiece tornOpChecks ["lazyfs".toList, "torn-op".toList] p) :
    TornOpFilled l s := by
  have hfile : ("file=", notEmpty) ∈ tornOpChecks := by simp [tornOpChecks]
  have hparts : ("parts=", isNumber) ∈ tornOpChecks := by simp [tornOpChecks]
  have hbytes : ("parts_bytes=", isNumberList) ∈ tornOpChecks := by simp [tornOpChecks]
  have hpersist : ("persist=", isNumberList) ∈ tornOpChecks := by simp [tornOpChecks]
  have hocc : ("occurrence=", isNumber) ∈ tornOpChecks := by simp [tornOpChecks]
  -- a value that passed its check is not the text for a missing one
  have hnumber : ∀ v, isNumber v = true → v ≠ "none".toList := by
    rintro v hv rfl
    exact absurd hv (by decide)
  have hlist : ∀ v, isNumberList v = true → v ≠ "none".toList := by
    rintro v hv rfl
    exact absurd hv (by decide)
  have h1 := foldl_checked hgood hfile (fun a p => (tornOpPiece_spec a p).1) rfl
  have h2 := foldl_checked hgood hparts (fun a p => (tornOpPiece_spec a p).2.1) rfl
  have h3 := foldl_checked hgood hbytes (fun a p => (tornOpPiece_spec a p).2.2.1) rfl
  have h4 := foldl_checked hgood hpersist (fun a p => (tornOpPiece_spec a p).2.2.2.1) rfl
  have h5 := foldl_checked hgood hocc (fun a p => (tornOpPiece_spec a p).2.2.2.2.1) rfl
  have hpartsOk := (check_of_good hgood hparts).2
  have hbytesOk := (check_of_good hgood hbytes).2
  refine ⟨?_, ?_, by rw [h1, h2, h3, h4, h5], numbers_getD (check_of_good hgood hpersist).2, ?_,
    numberOr_getD hpartsOk _, numberOr_getD (check_of_good hgood hocc).2 1⟩
  · rw [h2]
    exact getD_eq_none_iff fun v hv => hnumber v (hpartsOk v hv)
  · rw [h3]
    exact getD_eq_none_iff fun v hv => hlist v (hbytesOk v hv)
  · refine Eq.trans ?_ (numbers_getD hbytesOk)
    split_ifs with hn
    · rw [hn]
      decide
    · rfl

/-- The check after the pieces of a torn-op command: it gives the parts in some way. -/
def checkParts (a : Attributes) : Attributes :=
  if a.parts = "none".toList ∧ a.partsBytes = "none".toList then
    a.err "should specify 'parts' or 'parts_bytes', not both"
  else a

lemma fhtWorkerTornOp_eq (command : List Char) {a : Attributes}
    (ha : (splitPieces command).foldl tornOpPiece {} = a) :
    fhtWorkerTornOp command s = if (checkParts a).errors = [] then
      addTornOpFault (checkParts a).file (checkParts a).parts (checkParts a).partsBytes
        (checkParts a).persist (checkParts a).occurrence s
      else .ok (checkParts a).errors s := by
  subst ha
  rw [fhtWorkerTornOp, checkParts]
  split_ifs <;> rfl

/-- A torn-op command that is not malformed is handed over with its attributes. -/
lemma fhtWorkerTornOp_wellFormed {command : List Char}
    (hm : ¬ (tornOpText (splitPieces command)).Malformed) :
    TornOpFilled (splitPieces command) s ∧ fhtWorkerTornOp command s
      = addTornOpFault ((splitPieces command).foldl tornOpPiece {}).file
        ((splitPieces command).foldl tornOpPiece {}).parts
        ((splitPieces command).foldl tornOpPiece {}).partsBytes
        ((splitPieces command).foldl tornOpPiece {}).persist
        ((splitPieces command).foldl tornOpPiece {}).occurrence s := by
  have hg : ∀ p ∈ splitPieces command,
      ¬ BadPiece tornOpChecks ["lazyfs".toList, "torn-op".toList] p :=
    fun p hp hb => hm (.inl ⟨p, hp, hb⟩)
  have hF := tornOpFilled s hg
  refine ⟨hF, ?_⟩
  have hnot := fun h : _ ∧ _ => hm (.inr ⟨hF.parts_none.mp h.1, hF.partsBytes_none.mp h.2⟩)
  have hnil := (foldl_errors (fun a p => (tornOpPiece_spec a p).2.2.2.2.2) _ {}).mpr ⟨rfl, hg⟩
  rw [fhtWorkerTornOp_eq command rfl, checkParts, if_neg hnot, if_pos hnil]

/-- **Torn-op commands.** -/
lemma tornOp_handled_iff (command : List Char) :
    (tornOpText (splitPieces command)).Handled (fhtWorkerTornOp command s) s ↔
      (tornOpText (splitPieces command)).Sound s := by
  set l := splitPieces command with hl
  refine TornText.handled_iff "Only one torn-op fault per file is allowed." ?_ ?_ ?_ ?_
  · -- a piece is reported, or neither way to give the parts is used
    intro hm
    have hne : (checkParts (l.foldl tornOpPiece {})).errors ≠ [] := by
      rw [checkParts]
      split_ifs with hnone
      · exact Attributes.errors_err _ _
      · intro hnil
        obtain ⟨-, hg⟩ :=
          (foldl_errors (fun a p => (tornOpPiece_spec a p).2.2.2.2.2) l {}).mp hnil
        have hF := tornOpFilled s hg
        rcases hm with ⟨p, hp, hb⟩ | ⟨h1, h2⟩
        · exact hg p hp hb
        · exact hnone ⟨hF.parts_none.mpr h1, hF.partsBytes_none.mpr h2⟩
    exact ⟨_, by rw [fhtWorkerTornOp_eq command rfl, ← hl, if_neg hne], hne⟩
  · -- a number does not fit an `int`
    intro hm hf
    obtain ⟨hF, heq⟩ := fhtWorkerTornOp_wellFormed (s := s) hm
    rw [heq, hF.added]
    refine addTornOpFault_throws ?_
    rw [hF.persist, hF.partsBytes, hF.parts, hF.occurrence]
    by_contra hcon
    simp only [ite_eq_right_iff, reduceCtorEq, imp_false, not_or, not_not] at hcon
    exact hf hcon
  all_goals
    -- the numbers fit, and the checks of the fault decide
    intro hm hf hi
    obtain ⟨hF, heq⟩ := fhtWorkerTornOp_wellFormed (s := s) hm
    have h2 := hF.persist.trans (if_pos hf.1)
    have h3 := hF.partsBytes.trans (if_pos hf.2.1)
    have h4 := hF.parts.trans (if_pos hf.2.2.1)
    have h5 := hF.occurrence.trans (if_pos hf.2.2.2)
    rw [heq, hF.added, addTornOpFault_eq h2 h3 h4 h5, ← (tornOpText_eq l).1]
  · exact if_neg hi
  · rw [← (tornOpText_eq l).2]
    exact if_pos hi

/-- **Torn-seq commands.** -/
lemma tornSeq_handled_iff (command : List Char) :
    (tornSeqText (splitPieces command)).Handled (fhtWorkerTornSeq command s) s ↔
      (tornSeqText (splitPieces command)).Sound s := by
  set l := splitPieces command with hl
  have hrun : fhtWorkerTornSeq command s
      = if (l.foldl tornSeqPiece {}).errors = [] then
          addTornSeqFault (l.foldl tornSeqPiece {}).file (l.foldl tornSeqPiece {}).op
            (l.foldl tornSeqPiece {}).persist (l.foldl tornSeqPiece {}).occurrence s
        else .ok (l.foldl tornSeqPiece {}).errors s := by
    rw [fhtWorkerTornSeq]
    rw [← hl]
    split_ifs <;> rfl
  have herr := foldl_errors (fun a p => (tornSeqPiece_spec a p).2.2.2.2) l {}
  -- without a bad piece the attributes are the last values given
  have hread : ¬ (tornSeqText l).Malformed → fhtWorkerTornSeq command s
      = addTornSeqFault ((lastValue "file=" l).getD "none".toList)
        ((lastValue "op=" l).getD "none".toList)
        ((lastValue "persist=" l).getD "none".toList)
          ((lastValue "occurrence=" l).getD "none".toList) s ∧
      numbers ((lastValue "persist=" l).getD "none".toList)
        = (if ∀ v ∈ lastValue "persist=" l, ListFits v
        then some (listGiven (lastValue "persist=" l)) else none) ∧
      numberOr 1 ((lastValue "occurrence=" l).getD "none".toList)
        = (if ∀ v ∈ lastValue "occurrence=" l,
        Fits v then some (numberGiven 1 (lastValue "occurrence=" l)) else none) := by
    intro hm
    have hgood : ∀ p ∈ l, ¬ BadPiece tornSeqChecks ["lazyfs".toList, "torn-seq".toList] p :=
      fun p hp hb => hm ⟨p, hp, hb⟩
    have hfile : ("file=", notEmpty) ∈ tornSeqChecks := by simp [tornSeqChecks]
    have hop : ("op=", notEmpty) ∈ tornSeqChecks := by simp [tornSeqChecks]
    have hpersist : ("persist=", isNumberList) ∈ tornSeqChecks := by simp [tornSeqChecks]
    have hocc : ("occurrence=", isNumber) ∈ tornSeqChecks := by simp [tornSeqChecks]
    refine ⟨?_, numbers_getD (check_of_good hgood hpersist).2,
      numberOr_getD (check_of_good hgood hocc).2 1⟩
    rw [hrun, if_pos (herr.mpr ⟨rfl, hgood⟩),
      foldl_checked hgood hfile (fun a p => (tornSeqPiece_spec a p).1) rfl,
      foldl_checked hgood hop (fun a p => (tornSeqPiece_spec a p).2.1) rfl,
      foldl_checked hgood hpersist (fun a p => (tornSeqPiece_spec a p).2.2.1) rfl,
      foldl_checked hgood hocc (fun a p => (tornSeqPiece_spec a p).2.2.2.1) rfl]
  refine TornText.handled_iff "Only one torn-seq fault per file is allowed." ?_ ?_ ?_ ?_
  · -- a piece is reported
    rintro ⟨p, hp, hb⟩
    have hne : (l.foldl tornSeqPiece {}).errors ≠ [] := fun h => (herr.mp h).2 p hp hb
    exact ⟨_, by rw [hrun, if_neg hne], hne⟩
  · intro hm hf
    obtain ⟨h1, h2, h3⟩ := hread hm
    rw [h1]
    -- a number does not fit an `int`
    refine addTornSeqFault_throws ?_
    rcases not_and_or.mp hf with hf | hf
    · exact .inl (by rw [h2, if_neg hf])
    · exact .inr (by rw [h3, if_neg hf])
  · intro hm hf hi
    obtain ⟨h1, h2, h3⟩ := hread hm
    -- the numbers fit, and the checks of the fault decide
    rw [if_pos hf.1] at h2
    rw [if_pos hf.2] at h3
    rw [h1, addTornSeqFault_eq h2 h3]
    exact if_neg hi
  · intro hm hf hi
    obtain ⟨h1, h2, h3⟩ := hread hm
    rw [if_pos hf.1] at h2
    rw [if_pos hf.2] at h3
    rw [h1, addTornSeqFault_eq h2 h3]
    exact if_pos hi

/-- **The commands that register a fault** are handled exactly when they are sound: a command is
rejected with nothing changed, or it names all it must and exactly its fault is added. -/
theorem commands_handled_iff (cfg : Config) (io : Path → Engine.SyncIo) (hs : FullTables s)
    (command : List Char) :
    ("lazyfs::crash".toList <+: command →
      ((CrashText.of (splitPieces command)).Handled (fhtWorkerCommand cfg io command s) s ↔
        CrashText.Sound (splitPieces command))) ∧
    ("lazyfs::torn-op".toList <+: command →
      ((tornOpText (splitPieces command)).Handled (fhtWorkerCommand cfg io command s) s ↔
        (tornOpText (splitPieces command)).Sound s)) ∧
    ("lazyfs::torn-seq".toList <+: command →
      ((tornSeqText (splitPieces command)).Handled (fhtWorkerCommand cfg io command s) s ↔
        (tornSeqText (splitPieces command)).Sound s)) := by
  have hapart : ∀ {a b : String}, Apart a b → a.toList <+: command → ¬ b.toList <+: command := by
    intro a b hab ha hb
    rcases List.prefix_or_prefix_of_prefix ha hb with h | h
    · exact hab.1 h
    · exact hab.2 h
  have hclear : ∀ {a : String}, Apart a "lazyfs::clear-cache" → a.toList <+: command →
      command ≠ "lazyfs::clear-cache".toList := by
    rintro a hab ha rfl
    exact hapart hab ha List.prefix_rfl
  refine ⟨fun h => ?_, fun h => ?_, fun h => ?_⟩
  · rw [fhtWorkerCommand, if_pos h]
    exact CrashText.handled_iff hs command
  · rw [fhtWorkerCommand, if_neg (hapart (by decide) h), if_neg (hclear (by decide) h), if_pos h]
    exact tornOp_handled_iff command
  · rw [fhtWorkerCommand, if_neg (hapart (by decide) h), if_neg (hclear (by decide) h),
      if_neg (hapart (by decide) h), if_pos h]
    exact tornSeq_handled_iff command

/-- An empty file system without faults. -/
def fresh : Lfs := Lfs.new ⟨.new (.tiny 1 false), .empty⟩ ∅

/-- The first command of the documentation arms its crash fault. -/
theorem commands_handled_iff_write :
    (CrashText.of (splitPieces
      "lazyfs::crash::timing=before::op=write::from_rgx=file1".toList)).Handled
        (fhtWorkerCommand (.tiny 1 false) (fun _ => {})
          "lazyfs::crash::timing=before::op=write::from_rgx=file1".toList fresh) fresh ∧
      fhtWorkerCommand (.tiny 1 false) (fun _ => {})
          "lazyfs::crash::timing=before::op=write::from_rgx=file1".toList fresh
        = .ok [] (fresh.arm "before" "write" "file1" "none") :=
  ⟨((commands_handled_iff (.tiny 1 false) (fun _ => {}) (fullTables_new _ _) _).1
    (by decide +kernel)).mpr (.inr (.inr (by decide +kernel))), rfl⟩

/-- **An operation is missing**: the worker throws an exception. -/
theorem command_throws :
    (∃ s', fhtWorkerCommand (.tiny 1 false) (fun _ => {})
      "lazyfs::crash::timing=before::from_rgx=file1".toList fresh = .error .exception s') ∧
    ¬ (CrashText.of (splitPieces "lazyfs::crash::timing=before::from_rgx=file1".toList)).Handled
      (fhtWorkerCommand (.tiny 1 false) (fun _ => {})
        "lazyfs::crash::timing=before::from_rgx=file1".toList fresh) fresh := by
  have hthrow : fhtWorkerCommand (.tiny 1 false) (fun _ => {})
      "lazyfs::crash::timing=before::from_rgx=file1".toList fresh = .error .exception _ :=
    eq_error_of_halt? (by decide +kernel)
  refine ⟨⟨_, hthrow⟩, ?_⟩
  rintro (⟨errors, hok, -⟩ | ⟨-, ho, -⟩)
  · rw [hthrow] at hok
    cases hok
  · revert ho
    decide +kernel

end LazyFS
