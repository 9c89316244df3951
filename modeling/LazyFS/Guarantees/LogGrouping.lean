import LazyFS.Guarantees.LogRounds

/-!
What the grouping of a log reports.

* `Call.Reported`, `reported_fresh`: a call of `group_ops` returns, and reports the rounds of its
  operations.
* `Clean`: the lists whose repetitions are all whole, or broken just before they are; `expand_iff`:
  the output expanded is the input exactly then.
* `groupOps_terminates`: every call returns, and each buffer starts after the one before it.
-/

namespace LazyFS.LogParse

open Periods Relation

variable {limit b j p k : ℕ} {ops : List Op} {out : List (Entry × ℕ)} {c c' : Call}

/-! ### Rounds and what they cover -/

section Abstract

variable {α : Type} {l : List α}

/-- Patterns written out, each its number of times. -/
def unroll (rs : List (List α × ℕ)) : List α :=
  (rs.map fun r => (List.replicate r.2 r.1).flatten).flatten

@[simp] lemma unroll_nil : unroll ([] : List (List α × ℕ)) = [] := rfl

@[simp] lemma unroll_cons (r : List α × ℕ) (rs : List (List α × ℕ)) :
    unroll (r :: rs) = (List.replicate r.2 r.1).flatten ++ unroll rs := rfl

variable [DecidableEq α]

variable (limit l)

/-- The repetitions at the head of a list: if there are two or more, they are whole, or another
operation comes where only the last one of a further repetition is missing. -/
def WholeAt : Prop :=
  Repeats limit l →
    stretch (returnTime l) l % returnTime l = 0 ∨
      (stretch (returnTime l) l < l.length ∧
        stretch (returnTime l) l % returnTime l = returnTime l - 1)

instance : Decidable (WholeAt limit l) := inferInstanceAs (Decidable (_ → _))

/-- The operations of the whole repetitions at the head of a list, one operation if there are fewer
than two or if nothing but two repetitions of several operations is left. -/
def covered : ℕ :=
  if Repeats limit l ∧ ¬Twice l then stretch (returnTime l) l / returnTime l * returnTime l else 1

variable {limit l}

variable (limit) in
lemma covered_pos (hl : l ≠ []) : 0 < covered limit l := by
  rw [covered]
  split
  · have hp := returnTime_pos hl
    exact Nat.mul_pos (Nat.div_pos (le_stretch _ _) hp) hp
  · exact Nat.one_pos

variable (limit)

/-- A list whose repetitions, read from the left, are all whole in this sense. -/
def Clean (l : List α) : Prop :=
  if _h : l = [] then True
  else WholeAt limit l ∧ Clean (l.drop (covered limit l))
termination_by l.length
decreasing_by
  have hpos := covered_pos limit _h
  have hlen := List.length_pos_iff.mpr _h
  rw [List.length_drop]
  omega

lemma clean_of_ne (h : l ≠ []) :
    Clean limit l ↔ WholeAt limit l ∧ Clean limit (l.drop (covered limit l)) := by
  rw [Clean, dif_neg h]

@[simp] lemma clean_nil : Clean limit ([] : List α) := by
  rw [Clean, dif_pos rfl]
  trivial

variable {limit}

/-- The pattern of a round is read off the list. -/
lemma round_length_le (hl : l ≠ []) : (round limit l).length ≤ l.length := by
  have hlen := List.length_pos_iff.mpr hl
  have hp := returnTime_le l
  rw [round]
  split
  · dsimp only
    split_ifs <;> exact hp
  · exact hlen

variable (limit) in
/-- A round ends within the stretch. -/
lemma round_advance_le (hl : l ≠ []) : (round limit l).advance ≤ stretch (returnTime l) l := by
  have hp := returnTime_pos hl
  have hle := le_stretch (returnTime l) l
  rw [round]
  split
  · dsimp only
    split
    · exact le_rfl
    · split
      · exact le_rfl
      · dsimp only
        omega
  · dsimp only
    omega

variable (limit) in
/-- A round reports at least the operations up to the next one, and exactly these when the
repetitions are whole. -/
lemma round_covers (hl : l ≠ []) :
    (WholeAt limit l ∧ (round limit l).reps * (round limit l).length = (round limit l).advance ∧
        (round limit l).advance = covered limit l) ∨
      (¬WholeAt limit l ∧ (round limit l).advance
        < (round limit l).reps * (round limit l).length) := by
  have hp := returnTime_pos hl
  by_cases hr : Repeats limit l ∧ ¬Twice l
  · -- a group: how far the pattern goes, in whole repetitions and a rest
    have hdiv := Nat.mod_add_div (stretch (returnTime l) l) (returnTime l)
    have hmod := Nat.mod_lt (stretch (returnTime l) l) hp
    have hcov : covered limit l = stretch (returnTime l) l / returnTime l * returnTime l :=
      if_pos hr
    have hcomm := Nat.mul_comm (stretch (returnTime l) l / returnTime l) (returnTime l)
    have hle : stretch (returnTime l) l ≤ l.length := stretch_le (returnTime_le l)
    -- it goes to the end of the list, or is broken before
    rcases eq_or_lt_of_le hle with hend | hend
    · have htwice : ¬(stretch (returnTime l) l = 2 * returnTime l ∧ 1 < returnTime l) :=
        fun h => hr.2 ⟨hend, by omega, h.2⟩
      rw [round_of_end rfl rfl hr.1.1 hr.1.2 hend htwice, hcov]
      rcases Nat.eq_zero_or_pos (stretch (returnTime l) l % returnTime l) with h0 | h0
      · left
        refine ⟨fun _ => .inl h0, ?_⟩
        rw [if_neg h0.not_gt, Nat.add_zero]
        dsimp only
        omega
      · right
        refine ⟨fun h => ?_, ?_⟩
        · rcases h hr.1 with h | h <;> omega
        · rw [if_pos h0]
          dsimp only
          rw [Nat.succ_mul]
          omega
    · rw [round_of_break rfl rfl hr.1.1 hr.1.2 hend, hcov]
      split
      · rename_i h0
        left
        refine ⟨fun _ => .inl h0, ?_⟩
        dsimp only
        omega
      · rename_i h0
        by_cases h1 : stretch (returnTime l) l % returnTime l = returnTime l - 1
        · -- one operation
          left
          refine ⟨fun _ => .inr ⟨hend, h1⟩, ?_⟩
          have h2 := hr.1.2
          dsimp only
          omega
        · right
          refine ⟨fun h => ?_, ?_⟩
          · rcases h hr.1 with h | h <;> omega
          · have h2 := hr.1.2
            dsimp only
            omega
  · left
    rw [round_of_not hr, covered, if_neg hr]
    refine ⟨fun h => .inl ?_, rfl, rfl⟩
    have ht : Twice l := not_not.mp fun hn => hr ⟨h, hn⟩
    rw [ht.1, ht.2.1, Nat.mul_mod_left]

/-- The whole repetitions at the head of a list, written out. -/
lemma take_covered (hl : l ≠ []) (h : WholeAt limit l) :
    (List.replicate (round limit l).reps (l.take (round limit l).length)).flatten
      = l.take (covered limit l) := by
  rcases round_covers limit hl with ⟨-, hmul, hcov⟩ | ⟨hn, -⟩
  · by_cases hr : Repeats limit l ∧ ¬Twice l
    · have hlength : (round limit l).length = returnTime l := by
        rw [round, if_pos hr]
        dsimp only
        split_ifs <;> rfl
      have hle : covered limit l ≤ stretch (returnTime l) l := by
        rw [covered, if_pos hr]
        exact Nat.div_mul_le_self _ _
      rw [hlength] at hmul ⊢
      rw [← hcov, ← hmul, take_mul (by omega)]
      have := stretch_le (returnTime_le l)
      omega
    · rw [round_of_not hr, covered, if_neg hr]
      simp
  · exact absurd h hn

/-- **The rounds of a list write out to the list exactly when its repetitions are whole**, and to
more operations otherwise. -/
lemma unroll_rounds (limit : ℕ) (l : List α) :
    (Clean limit l ∧ unroll (rounds limit l) = l) ∨
      (¬Clean limit l ∧ l.length < (unroll (rounds limit l)).length) := by
  induction hn : l.length using Nat.strong_induction_on generalizing l with
  | _ n ih =>
    rcases eq_or_ne l [] with rfl | hl
    · left
      exact ⟨clean_nil limit, by rw [rounds_nil, unroll_nil]⟩
    · have hpos := round_advance_pos limit hl
      have hlen := List.length_pos_iff.mpr hl
      -- the rounds after the first
      have hrest := ih _ (by rw [← hn, List.length_drop]; omega)
        (l.drop (round limit l).advance) rfl
      have hround : (unroll (rounds limit l)).length
          = (round limit l).reps * (round limit l).length
            + (unroll (rounds limit (l.drop (round limit l).advance))).length := by
        rw [rounds_of_ne limit hl, unroll_cons, List.length_append, List.length_flatten]
        simp [round_length_le hl]
      -- the first round is exact, or too long
      rcases round_covers limit hl with ⟨hw, hmul, hcov⟩ | ⟨hw, hlt⟩
      · rcases hrest with ⟨hc, hu⟩ | ⟨hc, hlong⟩
        · left
          rw [clean_of_ne limit hl, ← hcov]
          refine ⟨⟨hw, hc⟩, ?_⟩
          rw [rounds_of_ne limit hl, unroll_cons, hu]
          dsimp only
          rw [take_covered hl hw, ← hcov, List.take_append_drop]
        · right
          rw [clean_of_ne limit hl, ← hcov]
          refine ⟨fun h => hc h.2, ?_⟩
          rw [List.length_drop] at hlong
          omega
      · right
        rw [clean_of_ne limit hl]
        refine ⟨fun h => hw h.1, ?_⟩
        have hlong : l.length - (round limit l).advance
            ≤ (unroll (rounds limit (l.drop (round limit l).advance))).length := by
          rw [← List.length_drop]
          rcases hrest with ⟨-, hu⟩ | ⟨-, hlong⟩
          · rw [hu]
          · exact hlong.le
        omega

end Abstract

/-! ### A buffer from start to end -/

/-- The pattern grows until its first operation comes again. -/
lemma turns_push (hops : ∀ op ∈ ops, op ≠ .fault) (hp : 1 ≤ p) (hlimit : p ≤ limit)
    (hlen : j + p ≤ ops.length) (hfirst : p ≤ returnTime (bares ops j)) :
    ReflTransGen (Turn limit) (fresh ops out j b) (built ops out j p p) := by
  induction p, hp using Nat.le_induction with
  | base => exact .single (turn_fresh (by omega) (by omega))
  | succ p hp ih =>
      have hne := getElem?_ne_head (l := bares ops j) (t := p) hp hfirst
      exact (ih (by omega) (by omega) (by omega)).tail (turn_push hops hp (by omega) (by omega) hne)

/-- The pattern is repeated as long as it can be. -/
lemma turns_repeat (hops : ∀ op ∈ ops, op ≠ .fault) (hp : 0 < p) (hpk : p ≤ k) (hlimit : p < limit)
    (hlen : j + k ≤ ops.length) (hk : k ≤ stretch p (bares ops j)) :
    ReflTransGen (Turn limit) (built ops out j p p) (built ops out j p k) := by
  induction k, hpk using Nat.le_induction with
  | base => exact .refl
  | succ k hpk ih =>
      exact (ih (by omega) (by omega)).tail (turn_repeat hops hp hpk hlimit (by omega) hk)

/-- A call returns, and has then reported `out`. -/
def Call.Reported (limit : ℕ) (c : Call) (out : List (Entry × ℕ)) : Prop :=
  ∃ s, s.opsGrouped = out ∧ ∃ n, ∀ fuel, n ≤ fuel → groupOps limit fuel c = .ok s

lemma Call.Reported.of_next {s : Globals} (h : c.next limit = .ok (.inr s)) :
    c.Reported limit s.opsGrouped := by
  refine ⟨s, rfl, 1, fun fuel hfuel => ?_⟩
  obtain ⟨fuel, rfl⟩ : ∃ m, fuel = m + 1 := ⟨fuel - 1, by omega⟩
  rw [groupOps, h]
  rfl

lemma Call.Reported.of_turn (h : Turn limit c c') (hr : c'.Reported limit out) :
    c.Reported limit out := by
  obtain ⟨s, hs, n, hn⟩ := hr
  refine ⟨s, hs, n + 1, fun fuel hfuel => ?_⟩
  obtain ⟨fuel, rfl⟩ : ∃ m, fuel = m + 1 := ⟨fuel - 1, by omega⟩
  rw [groupOps, show c.next limit = _ from h]
  exact hn fuel (by omega)

lemma Call.Reported.of_turns (h : ReflTransGen (Turn limit) c c') (hr : c'.Reported limit out) :
    c.Reported limit out := by
  induction h using ReflTransGen.head_induction_on with
  | refl => exact hr
  | head h _ ih => exact .of_turn h ih

/-- The end of the loop, once it is reached. -/
lemma turns_flush (out : List (Entry × ℕ)) (hops : ∀ op ∈ ops, op ≠ .fault) {c : Call}
    (hp : 0 < p) (hpk : p ≤ k) (hlen : j + k ≤ ops.length) (hend : j + k = ops.length ∨ p = limit)
    (hrep : p < k → p < limit) (hfirst : p ≤ returnTime (bares ops j))
    (hk : k ≤ stretch p (bares ops j))
    (hreach : ReflTransGen (Turn limit) c (built ops out j p k)) :
    ∃ e, Reports limit (bares ops j) e ∧
      let a := j + (round limit (bares ops j)).advance
      if a < ops.length then
        ∃ ops' j' b', ops'.drop j' = ops.drop a ∧ (∀ op ∈ ops', op ≠ .fault) ∧ j' < ops'.length ∧
          ReflTransGen (Turn limit) c (fresh ops' (out ++ [e]) j' b')
      else c.Reported limit (out ++ [e]) := by
  obtain ⟨e, he, hnext⟩ := next_flush out hp hpk hlen hend hrep hfirst hk
  refine ⟨e, he, ?_⟩
  dsimp only at hnext ⊢
  split
  · rename_i ha
    rw [if_pos ha] at hnext
    refine ⟨_, 0, j, List.drop_zero, fun op hop => hops op (List.mem_of_mem_drop hop), ?_,
      hreach.tail hnext⟩
    rw [List.length_drop]
    omega
  · rename_i ha
    rw [if_neg ha] at hnext
    obtain ⟨s, hs, hout⟩ := hnext
    exact hout ▸ Call.Reported.of_turns hreach (.of_next hs)

/-- A buffer ends where the round says: the next one starts, in this call or in the next, or the
call returns. -/
lemma turns_round (out : List (Entry × ℕ)) (b : ℕ) (hops : ∀ op ∈ ops, op ≠ .fault)
    (hlimit : 0 < limit) (hj : j < ops.length) :
    ∃ e, Reports limit (bares ops j) e ∧
      let a := j + (round limit (bares ops j)).advance
      if a < ops.length then
        ∃ ops' j' b', ops'.drop j' = ops.drop a ∧ (∀ op ∈ ops', op ≠ .fault) ∧ j' < ops'.length ∧
          ReflTransGen (Turn limit) (fresh ops out j b) (fresh ops' (out ++ [e]) j' b')
      else (fresh ops out j b).Reported limit (out ++ [e]) := by
  have hlen : (bares ops j).length = ops.length - j := length_bares
  have hne : bares ops j ≠ [] := List.length_pos_iff.mp (by omega)
  have hpos := returnTime_pos hne
  have hle := returnTime_le (bares ops j)
  by_cases hrec : returnTime (bares ops j) < limit ∧ returnTime (bares ops j) < (bares ops j).length
  · -- The first operation comes again: the pattern is repeated.
    have hk : stretch (returnTime (bares ops j)) (bares ops j) ≤ (bares ops j).length :=
      stretch_le hle
    have hlt : returnTime (bares ops j) < stretch (returnTime (bares ops j)) (bares ops j) := by
      refine lt_of_le_of_ne (le_stretch _ _) fun heq => ?_
      have hne := getElem?_stretch_ne (heq ▸ hrec.2)
      rw [← heq, Nat.sub_self] at hne
      exact hne (getElem?_returnTime hrec.2)
    have hreach : ReflTransGen (Turn limit) (fresh ops out j b)
        (built ops out j (returnTime (bares ops j))
          (stretch (returnTime (bares ops j)) (bares ops j))) :=
      (turns_push hops hpos hrec.1.le (by omega) le_rfl).trans
        (turns_repeat hops hpos hlt.le hrec.1 (by omega) le_rfl)
    rcases eq_or_lt_of_le hk with hend | hend
    · exact turns_flush out hops hpos hlt.le (by omega) (.inl (by omega)) (fun _ => hrec.1)
        le_rfl le_rfl hreach
    · obtain ⟨e, he, hturn⟩ :=
        turn_break out hops hpos hlt hrec.1 (by omega) le_rfl rfl
      have hadv := round_advance_le limit hne
      refine ⟨e, he, ?_⟩
      dsimp only
      rw [if_pos (by omega)]
      exact ⟨ops, _, j, rfl, hops, by omega, hreach.tail hturn⟩
  · -- It does not, below the limit.
    have hp : 0 < min (returnTime (bares ops j)) limit := Nat.lt_min.mpr ⟨hpos, hlimit⟩
    refine turns_flush out hops hp le_rfl (by omega) (by omega) (fun h => absurd h (lt_irrefl _))
      (Nat.min_le_left _ _) (le_stretch _ _) ?_
    exact turns_push hops hp (Nat.min_le_right _ _) (by omega) (Nat.min_le_left _ _)

/-! ### What a call reports -/

/-- **A call of `group_ops` returns, and reports the rounds of its operations.** -/
theorem reported_fresh (out : List (Entry × ℕ)) (b : ℕ) (hops : ∀ op ∈ ops, op ≠ .fault)
    (hlimit : 0 < limit) (hj : j < ops.length) :
    ∃ es, (fresh ops out j b).Reported limit (out ++ es) ∧
      (es.map fun e => (e.1.ops.map Op.bare, e.2)) = rounds limit (bares ops j) := by
  induction hn : ops.length - j using Nat.strong_induction_on generalizing ops out j b with
  | _ n ih =>
    have hne : bares ops j ≠ [] := List.length_pos_iff.mp (by rw [length_bares]; omega)
    obtain ⟨e, he, hround⟩ := turns_round out b hops hlimit hj
    have hpos := round_advance_pos limit hne
    have hdrop : (bares ops j).drop (round limit (bares ops j)).advance
        = (ops.drop (j + (round limit (bares ops j)).advance)).map Op.bare := by
      rw [bares, ← List.map_drop, List.drop_drop]
    rw [rounds_of_ne limit hne, hdrop]
    dsimp only at hround
    split at hround
    · rename_i ha
      obtain ⟨ops', j', b', heq, hops', hj', hreach⟩ := hround
      have hlen := congrArg List.length heq
      rw [List.length_drop, List.length_drop] at hlen
      obtain ⟨es, hes, hmap⟩ := ih _ (by omega) (out ++ [e]) b' hops' hj' rfl
      refine ⟨e :: es, ?_, ?_⟩
      · rw [List.append_assoc] at hes
        exact .of_turns hreach hes
      · rw [List.map_cons, hmap, bares, heq, he.1, he.2]
    · rename_i ha
      refine ⟨[e], hround, ?_⟩
      rw [List.drop_eq_nil_of_le (by omega), List.map_nil, rounds_nil,
        List.map_singleton, he.1, he.2]

/-- The output written out is its rounds written out. -/
lemma map_bare_expand (es : List (Entry × ℕ)) :
    (expand es).map Op.bare = unroll (es.map fun e => (e.1.ops.map Op.bare, e.2)) := by
  induction es with
  | nil => rfl
  | cons e es ih =>
      have hcons : expand (e :: es) = (List.replicate e.2 e.1.ops).flatten ++ expand es := rfl
      rw [hcons, List.map_append, ih, List.map_cons, unroll_cons, List.map_flatten,
        List.map_replicate]

/-- **The grouping of a log is lossless exactly for the logs whose repetitions are whole.** -/
theorem expand_eq_iff (ops : List Op) (hops : ∀ op ∈ ops, op ≠ .fault) :
    ∃ s, (∃ n, ∀ fuel, n ≤ fuel → groupOps groupLimit fuel (Call.init ops) = .ok s) ∧
      ((expand s.opsGrouped).map Op.bare = ops.map Op.bare ↔
        Clean groupLimit (ops.map Op.bare)) := by
  rcases Nat.eq_zero_or_pos ops.length with h0 | hpos
  · rw [List.length_eq_zero_iff] at h0
    subst h0
    have hnext : (Call.init []).next groupLimit = .ok (.inr (Globals.flush .init)) := rfl
    obtain ⟨s, hs, n, hn⟩ := Call.Reported.of_next hnext
    refine ⟨s, ⟨n, hn⟩, ?_⟩
    rw [hs]
    exact ⟨fun _ => clean_nil _, fun _ => rfl⟩
  · have hlimit : 0 < groupLimit := by decide
    obtain ⟨es, ⟨s, hs, n, hn⟩, hmap⟩ := reported_fresh [] 0 hops hlimit hpos
    refine ⟨s, ⟨n, hn⟩, ?_⟩
    have hbares : bares ops 0 = ops.map Op.bare := rfl
    rw [hbares] at hmap
    rw [hs, List.nil_append, map_bare_expand, hmap]
    rcases unroll_rounds groupLimit (ops.map Op.bare) with ⟨hc, hu⟩ | ⟨hc, hlong⟩
    · exact ⟨fun _ => hc, fun _ => hu⟩
    · exact ⟨fun h => absurd hlong (by rw [h]; exact lt_irrefl _), fun h => absurd h hc⟩

/-- A write, as `parse_ops` reads it. -/
def writeOf (path : String) : Op := .call "write" path (some (some "4096", some "0")) none

/-- Two operations, three times. -/
def threePairs : List Op := (List.replicate 3 [writeOf "/a", writeOf "/b"]).flatten

/-- Nothing is lost of them. -/
theorem expand_eq_iff_pairs : ∃ s,
    (∃ n, ∀ fuel, n ≤ fuel → groupOps groupLimit fuel (Call.init threePairs) = .ok s) ∧
      (expand s.opsGrouped).map Op.bare = threePairs.map Op.bare := by
  obtain ⟨s, hs, hiff⟩ := expand_eq_iff threePairs (by decide)
  have hne : threePairs.map Op.bare ≠ [] := by decide
  refine ⟨s, hs, hiff.mpr ((clean_of_ne groupLimit hne).mpr ⟨by decide, ?_⟩)⟩
  have hdrop : (threePairs.map Op.bare).drop (covered groupLimit (threePairs.map Op.bare))
      = [] := by
    decide
  rw [hdrop]
  exact clean_nil _

/-- A log that ends within a repetition: the operation that was not logged is reported. -/
theorem groupOps_invents_op :
    ∃ s, groupOps groupLimit 20
        (Call.init [writeOf "/a", writeOf "/b", writeOf "/a", writeOf "/b", writeOf "/a"]) = .ok s ∧
      (expand s.opsGrouped).map Op.bare
        ≠ [writeOf "/a", writeOf "/b", writeOf "/a", writeOf "/b", writeOf "/a"].map Op.bare :=
  ⟨_, rfl, by decide⟩

/-! ### Where the buffers start -/

/-- What the calls of a run are like: a pattern starts, or is formed and repeated. -/
inductive Shape (limit : ℕ) : Call → Prop where
  | fresh {ops : List Op} {out : List (Entry × ℕ)} {j b : ℕ} (hj : j < ops.length) :
      Shape limit (fresh ops out j b)
  | built {ops : List Op} {out : List (Entry × ℕ)} {b p k : ℕ} (hp : 0 < p) (hpk : p ≤ k)
      (hlen : b + k ≤ ops.length) (hlimit : p ≤ limit) (hrep : p < k → p < limit)
      (hfirst : p ≤ returnTime (bares ops b)) (hk : k ≤ stretch p (bares ops b)) :
      Shape limit (built ops out b p k)

namespace Call

/-- The next turn starts a buffer. -/
def Restarts (c : Call) : Prop := c.globals.buffer = [] ∧ c.globals.opsI < c.ops.length

/-- The index of the operation that is read next, in the list of `n` operations that the argument of
the call is the last part of. -/
def index (n : ℕ) (c : Call) : ℕ := n - c.ops.length + c.globals.opsI

/-- The operations from the start of the buffer on. -/
def left (c : Call) : ℕ :=
  c.ops.length - if c.globals.buffer = [] then c.globals.opsI else c.globals.bufferI

end Call

lemma Turn.unique {c₁ c₂ : Call} (h₁ : Turn limit c c₁) (h₂ : Turn limit c c₂) : c₁ = c₂ := by
  have h : Except.ok (Sum.inl c₁) = (Except.ok (Sum.inl c₂) : Except GroupError (Call ⊕ Globals)) :=
    h₁.symm.trans h₂
  simpa using h

lemma buffer_built_ne (hp : 0 < p) (hpk : p ≤ k) (hlen : b + k ≤ ops.length) :
    (built ops out b p k).globals.buffer ≠ [] := by
  refine List.length_pos_iff.mp ?_
  simp only [built, length_fill, List.length_drop]
  omega

lemma left_fresh : (fresh ops out j b).left = ops.length - j := rfl

lemma left_built (hp : 0 < p) (hpk : p ≤ k) (hlen : b + k ≤ ops.length) :
    (built ops out b p k).left = ops.length - b := by
  rw [Call.left, if_neg (buffer_built_ne hp hpk hlen)]
  rfl

/-- A turn goes on with the buffer, or ends it and leaves fewer operations for the next one. -/
lemma Shape.turn (hops : ∀ op ∈ c.ops, op ≠ .fault) (hlimit : 0 < limit) (hc : Shape limit c)
    (h : Turn limit c c') :
    Shape limit c' ∧ c'.ops <:+ c.ops ∧
      ((c'.globals.buffer ≠ [] ∧ c'.left = c.left) ∨
        (c.globals.buffer ≠ [] ∧ c'.globals.buffer = [] ∧ c'.left < c.left)) := by
  cases hc with
  -- the first turn of a round puts the first stretch in the buffer
  | @fresh ops out j b hj =>
      obtain rfl := h.unique (turn_fresh hj hlimit)
      have hne : bares ops j ≠ [] := List.length_pos_iff.mp (by rw [length_bares]; omega)
      refine ⟨.built Nat.one_pos le_rfl (by omega) hlimit (fun h => absurd h (lt_irrefl 1))
        (returnTime_pos hne) (le_stretch _ _), List.suffix_rfl,
        .inl ⟨buffer_built_ne Nat.one_pos le_rfl
          (by omega), ?_⟩⟩
      rw [left_built Nat.one_pos le_rfl (by omega), left_fresh]
  -- inside a round: an operation repeats the buffer, joins it, breaks the pattern or ends the list
  | @built ops out b p k hp hpk hlen hle hrep hfirst hk =>
      have hlenl : (bares ops b).length = ops.length - b := length_bares
      have hne : bares ops b ≠ [] := List.length_pos_iff.mp (by omega)
      have hpos := round_advance_pos limit hne
      rw [left_built hp hpk hlen]
      by_cases hloop : b + k < ops.length ∧ p < limit
      · rcases Nat.lt_or_ge k (stretch p (bares ops b)) with hlt | hge
        · -- the pattern goes on
          obtain rfl := h.unique (turn_repeat hops hp hpk hloop.2 hloop.1 hlt)
          refine ⟨.built hp (by omega) (by omega) hle (fun _ => hloop.2) hfirst hlt,
            List.suffix_rfl, .inl ⟨buffer_built_ne hp (by omega) (by omega), ?_⟩⟩
          rw [left_built hp (by omega) (by omega)]
        · have hstretch : stretch p (bares ops b) = k := le_antisymm hge hk
          -- it is broken, by the first operation after the buffer or later
          rcases eq_or_lt_of_le hpk with rfl | hlt
          · have hnext := getElem?_stretch_ne (p := p) (l := bares ops b) (by omega)
            rw [hstretch, Nat.sub_self] at hnext
            have hfirst' : p ≠ returnTime (bares ops b) := fun heq =>
              hnext (heq ▸ getElem?_returnTime (by omega))
            obtain rfl := h.unique (turn_push hops hp hloop.2 hloop.1 hnext)
            refine ⟨.built (by omega) le_rfl (by omega) (by omega) (fun h => absurd h (lt_irrefl _))
              (by omega) (le_stretch _ _), List.suffix_rfl,
              .inl ⟨buffer_built_ne (by omega) le_rfl (by omega), ?_⟩⟩
            rw [left_built (by omega) le_rfl (by omega)]
          · obtain ⟨e, -, hturn⟩ := turn_break out hops hp hlt hloop.2 hloop.1 hfirst hstretch
            obtain rfl := h.unique hturn
            have hadv := round_advance_le limit hne
            rw [← returnTime_eq hp hfirst hlt hk, hstretch] at hadv
            refine ⟨.fresh (show b + (round limit (bares ops b)).advance < ops.length by omega),
              List.suffix_rfl, .inr ⟨buffer_built_ne hp hpk hlen, rfl, ?_⟩⟩
            rw [left_fresh]
            change ops.length - (b + (round limit (bares ops b)).advance) < ops.length - b
            omega
      · -- the loop ends, and what is in the buffer is flushed
        obtain ⟨e, -, hnext⟩ := next_flush out hp hpk hlen (by omega) hrep hfirst hk
        dsimp only at hnext
        split at hnext
        · rename_i ha
          obtain rfl := h.unique hnext
          have hdrop : (ops.drop (b + (round limit (bares ops b)).advance)).length
              = ops.length - (b + (round limit (bares ops b)).advance) := List.length_drop
          refine ⟨.fresh (by omega), List.drop_suffix _ _,
            .inr ⟨buffer_built_ne hp hpk hlen, rfl, ?_⟩⟩
          rw [left_fresh]
          omega
        · obtain ⟨s, hs, -⟩ := hnext
          have hcontra : Except.ok (Sum.inl c')
              = (Except.ok (Sum.inr s) : Except GroupError (Call ⊕ Globals)) :=
            Eq.trans (Eq.symm h) hs
          simp at hcontra

/-- What holds of every call of a run. -/
lemma Shape.turns (hops : ∀ op ∈ ops, op ≠ .fault) (hlimit : 0 < limit) (hsuff : c.ops <:+ ops)
    (hc : Shape limit c) (h : ReflTransGen (Turn limit) c c') : Shape limit c' ∧
    c'.ops <:+ ops := by
  induction h with
  | refl => exact ⟨hc, hsuff⟩
  | tail _ h ih =>
      obtain ⟨hshape, hs, -⟩ := ih.1.turn (fun op hop => hops op (ih.2.subset hop)) hlimit h
      exact ⟨hshape, hs.trans ih.2⟩

/-- After the start of a buffer, the next one leaves fewer operations. -/
lemma Shape.left_lt (hops : ∀ op ∈ c.ops, op ≠ .fault) (hlimit : 0 < limit) (hc : Shape limit c)
    (hr : c.globals.buffer = []) (h : TransGen (Turn limit) c c') :
    if c'.globals.buffer = [] then c'.left < c.left else c'.left ≤ c.left := by
  induction h with
  | single h =>
      rcases (hc.turn hops hlimit h).2.2 with ⟨hb, hleft⟩ | ⟨hb, -⟩
      · rw [if_neg hb, hleft]
      · exact absurd hr hb
  | @tail d e hcd h ih =>
      obtain ⟨hd, hsuff⟩ := hc.turns hops hlimit List.suffix_rfl hcd.to_reflTransGen
      rcases (hd.turn (fun op hop => hops op (hsuff.subset hop)) hlimit h).2.2 with
        ⟨hb, hleft⟩ | ⟨hb, he, hleft⟩
      · rw [if_neg hb, hleft]
        split at ih
        · exact ih.le
        · exact ih
      · rw [if_neg hb] at ih
        rw [if_pos he]
        exact hleft.trans_le ih

/-- **The grouping of a log ends**: the loop and the calls on what remains come to their ends, and
every time the buffer is restarted, in the same call or in a later one, it is at a larger index. -/
theorem groupOps_terminates (limit : ℕ) (hlimit : 2 ≤ limit) (ops : List Op)
    (hops : ∀ op ∈ ops, op ≠ .fault) :
    (∃ s n, ∀ fuel, n ≤ fuel → groupOps limit fuel (Call.init ops) = .ok s) ∧
      ∀ c c', ReflTransGen (Turn limit) (Call.init ops) c → c.Restarts →
        TransGen (Turn limit) c c' → c'.Restarts →
          c.ops <:+ ops ∧ c'.ops <:+ ops ∧ c.index ops.length < c'.index ops.length := by
  have hpos : 0 < limit := by omega
  rcases Nat.eq_zero_or_pos ops.length with h0 | hlen
  · rw [List.length_eq_zero_iff] at h0
    subst h0
    have hnext : (Call.init []).next limit = .ok (.inr (Globals.flush .init)) := rfl
    obtain ⟨s, -, n, hn⟩ := Call.Reported.of_next hnext
    refine ⟨⟨s, n, hn⟩, fun c c' hreach hr => ?_⟩
    rcases hreach.cases_head with rfl | ⟨d, hd, -⟩
    · exact absurd hr.2 (lt_irrefl 0)
    · have hcontra : (Except.ok (Sum.inr (Globals.flush .init)) :
          Except GroupError (Call ⊕ Globals))
          = .ok (.inl d) := hnext.symm.trans hd
      simp at hcontra
  · obtain ⟨es, ⟨s, -, n, hn⟩, -⟩ := reported_fresh [] 0 hops hpos hlen
    refine ⟨⟨s, n, hn⟩, fun c c' hreach hr htrans hr' => ?_⟩
    have hinit : Shape limit (Call.init ops) :=
      (Shape.fresh hlen : Shape limit (fresh ops [] 0 0))
    obtain ⟨hc, hsuff⟩ := hinit.turns hops hpos List.suffix_rfl hreach
    have hops' : ∀ op ∈ c.ops, op ≠ .fault := fun op hop => hops op (hsuff.subset hop)
    have hsuff' := (hc.turns hops hpos hsuff htrans.to_reflTransGen).2
    have hleft := hc.left_lt hops' hpos hr.1 htrans
    rw [if_pos hr'.1, Call.left, Call.left, if_pos hr.1, if_pos hr'.1] at hleft
    have hle := hsuff.length_le
    have hle' := hsuff'.length_le
    refine ⟨hsuff, hsuff', ?_⟩
    rw [Call.index, Call.index]
    have hlt := hr.2
    have hlt' := hr'.2
    omega

/-- A pattern of two operations that is broken: the loop goes back from `/c` to `/b`. -/
def brokenPattern : List Op := [writeOf "/a", writeOf "/b", writeOf "/a", writeOf "/c"]

theorem groupOps_terminates_two :
    (∃ s n, ∀ fuel, n ≤ fuel → groupOps groupLimit fuel (Call.init brokenPattern) = .ok s) ∧
      ∀ c c', ReflTransGen (Turn groupLimit) (Call.init brokenPattern) c → c.Restarts →
        TransGen (Turn groupLimit) c c' → c'.Restarts →
          c.ops <:+ brokenPattern ∧ c'.ops <:+ brokenPattern ∧ c.index 4 < c'.index 4 :=
  groupOps_terminates groupLimit (by decide) brokenPattern (by decide)

end LazyFS.LogParse
