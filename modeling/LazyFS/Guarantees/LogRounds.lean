import LazyFS.Model.LogGroups
import LazyFS.Support.Periods

/-!
What one buffer of `group_ops` comes to.

* `Round`, `round`: how many operations the buffer started at the head of a list holds, how often it
  reports them, and how far the next buffer starts, read off the list; `rounds` is a whole list.
* `fill`, `Building`: the buffer while a pattern is formed and repeated.
* `Call.next_start` to `Call.next_flush`: the turns of the loop.
-/

namespace LazyFS.LogParse

open Periods

/-! ### Rounds -/

/-- What a buffer reports, and the operations from its start to the start of the next one. -/
structure Round where
  length : ℕ
  reps : ℕ
  advance : ℕ
  deriving DecidableEq

section Abstract

variable {α : Type} [DecidableEq α] (limit : ℕ) (l : List α)

/-- The first operation comes again below the limit, and there are two repetitions or more. -/
def Repeats : Prop := returnTime l < limit ∧ 2 * returnTime l ≤ stretch (returnTime l) l

instance : Decidable (Repeats limit l) := inferInstanceAs (Decidable (_ ∧ _))

/-- Two repetitions of several operations, and nothing else: reported one by one. -/
def Twice : Prop :=
  stretch (returnTime l) l = l.length ∧ l.length = 2 * returnTime l ∧ 1 < returnTime l

instance : Decidable (Twice l) := inferInstanceAs (Decidable (_ ∧ _))

/-- The buffer started at the head of a list. -/
def round : Round :=
  if Repeats limit l ∧ ¬Twice l then
    let p := returnTime l
    let m := stretch p l
    if m = l.length then ⟨p, m / p + if 0 < m % p then 1 else 0, m⟩
    else if m % p = 0 then ⟨p, m / p, m⟩
    else ⟨p, m / p, m - p + 1⟩
  else ⟨1, 1, 1⟩

variable {limit l} {p k : ℕ}

lemma round_of_not (h : ¬(Repeats limit l ∧ ¬Twice l)) : round limit l = ⟨1, 1, 1⟩ := if_neg h

/-- Fewer than two repetitions. -/
lemma round_of_lt (hp : p = returnTime l) (hk : stretch p l = k) (h : k < 2 * p) :
    round limit l = ⟨1, 1, 1⟩ := by
  refine round_of_not fun hr => ?_
  have h2 := hr.1.2
  rw [← hp, hk] at h2
  omega

/-- Two repetitions or more, up to the end. -/
lemma round_of_end (hp : p = returnTime l) (hk : stretch p l = k) (hlimit : p < limit)
    (h : 2 * p ≤ k) (hend : k = l.length) (htwice : ¬(k = 2 * p ∧ 1 < p)) :
    round limit l = ⟨p, k / p + if 0 < k % p then 1 else 0, k⟩ := by
  subst hp hk
  have hr : Repeats limit l ∧ ¬Twice l :=
    ⟨⟨hlimit, h⟩, fun ht => htwice ⟨hend.trans ht.2.1, ht.2.2⟩⟩
  rw [round, if_pos hr]
  exact if_pos hend

/-- Two repetitions or more, and then another operation. -/
lemma round_of_break (hp : p = returnTime l) (hk : stretch p l = k) (hlimit : p < limit)
    (h : 2 * p ≤ k) (hend : k < l.length) :
    round limit l = if k % p = 0 then ⟨p, k / p, k⟩ else ⟨p, k / p, k - p + 1⟩ := by
  subst hp hk
  have hr : Repeats limit l ∧ ¬Twice l := ⟨⟨hlimit, h⟩, fun ht => hend.ne ht.1⟩
  rw [round, if_pos hr]
  exact if_neg hend.ne

variable (limit) in
lemma round_advance_pos (hl : l ≠ []) : 0 < (round limit l).advance := by
  have hp := returnTime_pos hl
  have hm := le_stretch (returnTime l) l
  rw [round]
  split
  · dsimp only
    split
    · exact hp.trans_le hm
    · split
      · exact hp.trans_le hm
      · exact Nat.succ_pos _
  · exact Nat.one_pos

variable (limit)

/-- The patterns reported for a list, each with its number of repetitions. -/
def rounds (l : List α) : List (List α × ℕ) :=
  if _h : l = [] then []
  else
    (l.take (round limit l).length, (round limit l).reps) :: rounds (l.drop (round limit l).advance)
termination_by l.length
decreasing_by
  have hpos := round_advance_pos limit _h
  have hlen := List.length_pos_iff.mpr _h
  rw [List.length_drop]
  omega

@[simp] lemma rounds_nil : rounds limit ([] : List α) = [] := by
  rw [rounds, dif_pos rfl]

lemma rounds_of_ne (h : l ≠ []) :
    rounds limit l = (l.take (round limit l).length, (round limit l).reps)
      :: rounds limit (l.drop (round limit l).advance) := by
  rw [rounds, dif_neg h]

end Abstract

/-! ### The operations compared -/

/-- The markers of faults left out, two operations are the same if they are without the fields that
a group deletes. -/
lemma compareOps_eq {a b : Op} (ha : a ≠ .fault) :
    compareOps a b = .ok (decide (a.bare = b.bare)) := by
  cases a with
  | call => cases b <;> simp [compareOps, Op.bare, Bool.decide_and]
  | rename => cases b <;> simp [compareOps, Op.bare, Bool.decide_and]
  | fault => exact absurd rfl ha

lemma item_eq_ok {α : Type} {l : List α} {n : ℕ} {a : α} (h : l[n]? = some a) :
    item l n = .ok a := by
  rw [item, h]

/-! ### The buffer -/

/-- The buffer after `k` operations, the first `p` of which are the pattern. -/
def fill (w : List Op) (p k : ℕ) : List (Op × ℕ) :=
  (w.take p).zipIdx.map fun x => (x.1, k / p + if x.2 < k % p then 1 else 0)

variable {w : List Op} {p k t : ℕ}

@[simp] lemma length_fill : (fill w p k).length = min p w.length := by
  simp [fill]

lemma getElem?_fill (ht : t < p) :
    (fill w p k)[t]? = w[t]?.map fun o => (o, k / p + if t < k % p then 1 else 0) := by
  simp [fill, List.getElem?_take_of_lt ht, Function.comp_def]

lemma getElem?_fill_of_ge (ht : p ≤ t) : (fill w p k)[t]? = none := by
  simp only [List.getElem?_eq_none_iff, length_fill]
  omega

/-- One more operation of the pattern. -/
lemma fill_push {o : Op} (ho : w[p]? = some o) :
    fill w p p ++ [(o, 1)] = fill w (p + 1) (p + 1) := by
  have hlen : p < w.length := (List.getElem?_eq_some_iff.mp ho).1
  refine List.ext_getElem? fun t => ?_
  rcases Nat.lt_trichotomy t p with ht | rfl | ht
  · rw [List.getElem?_append_left (by rw [length_fill]; omega), getElem?_fill ht,
      getElem?_fill (by omega)]
    simp [Nat.div_self (Nat.zero_lt_of_lt ht)]
  · rw [List.getElem?_append_right (by rw [length_fill]; omega), getElem?_fill (by omega), ho]
    simp [Nat.min_eq_left hlen.le]
  · rw [getElem?_fill_of_ge ht, List.getElem?_eq_none_iff]
    simp
    omega

/-- One more operation, and the number of occurrences at its place goes up. -/
lemma count_succ (ht : t < p) :
    ((k + 1) / p + if t < (k + 1) % p then 1 else 0)
      = (k / p + if t < k % p then 1 else 0) + if t = k % p then 1 else 0 := by
  have hp : 0 < p := Nat.zero_lt_of_lt ht
  have hlt : k % p < p := Nat.mod_lt k hp
  have hk : k % p + p * (k / p) = k := Nat.mod_add_div k p
  rcases Nat.lt_or_ge (k % p + 1) p with hr | hr
  · obtain ⟨hd, hm⟩ := (Nat.div_mod_unique hp).mpr
      ⟨show k % p + 1 + p * (k / p) = k + 1 by omega, hr⟩
    rw [hd, hm]
    split_ifs <;> omega
  · obtain ⟨hd, hm⟩ := (Nat.div_mod_unique hp).mpr
      ⟨show 0 + p * (k / p + 1) = k + 1 by rw [Nat.mul_succ]; omega, hp⟩
    rw [hd, hm]
    split_ifs <;> omega

/-- One more operation of a repetition. -/
lemma fill_set (hp : 0 < p) {e : Op × ℕ} (he : (fill w p k)[k % p]? = some e) :
    (fill w p k).set (k % p) (e.1, e.2 + 1) = fill w p (k + 1) := by
  have hlt : k % p < p := Nat.mod_lt k hp
  refine List.ext_getElem? fun t => ?_
  rcases Nat.lt_or_ge t p with ht | ht
  · rw [getElem?_fill ht, count_succ ht]
    rcases eq_or_ne (k % p) t with rfl | hne
    · rw [getElem?_fill hlt, Option.map_eq_some_iff] at he
      obtain ⟨o, ho, rfl⟩ := he
      have hlen : k % p < w.length := (List.getElem?_eq_some_iff.mp ho).1
      rw [List.getElem?_set_self (by rw [length_fill]; omega), ho, if_pos rfl]
      rfl
    · rw [List.getElem?_set_ne hne, getElem?_fill ht, if_neg hne.symm]
      rfl
  · rw [getElem?_fill_of_ge ht, List.getElem?_eq_none_iff, List.length_set, length_fill]
    omega

/-- An element of a list of numbers replaced. -/
lemma sum_set_add {l : List ℕ} {a b : ℕ} (h : l[t]? = some b) :
    (l.set t a).sum + b = l.sum + a := by
  induction l generalizing t with
  | nil => simp at h
  | cons c l ih =>
      cases t with
      | zero =>
          rw [List.getElem?_cons_zero, Option.some.injEq] at h
          simp only [List.set_cons_zero, List.sum_cons]
          omega
      | succ t =>
          rw [List.getElem?_cons_succ] at h
          have hl := ih h
          simp only [List.set_cons_succ, List.sum_cons]
          omega

/-- Every operation is counted once. -/
lemma sum_fill (hp : 0 < p) (hpk : p ≤ k) (hw : p ≤ w.length) :
    ((fill w p k).map Prod.snd).sum = k := by
  induction k, hpk using Nat.le_induction with
  | base =>
      have hones : (fill w p p).map Prod.snd = List.replicate p 1 := by
        refine List.ext_getElem? fun t => ?_
        rw [List.getElem?_map]
        rcases Nat.lt_or_ge t p with ht | ht
        · rw [getElem?_fill ht, List.getElem?_eq_getElem (by omega),
            List.getElem?_replicate_of_lt ht]
          simp [Nat.div_self hp]
        · rw [getElem?_fill_of_ge ht, List.getElem?_eq_none (by simpa using ht)]
          rfl
      rw [hones, List.sum_replicate, smul_eq_mul, Nat.mul_one]
  | succ k hk ih =>
      have hlt : k % p < (fill w p k).length := by
        rw [length_fill, Nat.min_eq_left hw]
        exact Nat.mod_lt k hp
      have he : (fill w p k)[k % p]? = some (fill w p k)[k % p] := List.getElem?_eq_getElem hlt
      have hget : ((fill w p k).map Prod.snd)[k % p]? = some (fill w p k)[k % p].2 := by
        rw [List.getElem?_map, he]
        rfl
      have hset := sum_set_add (a := (fill w p k)[k % p].2 + 1) hget
      rw [← fill_set hp he, List.map_set]
      dsimp only at hset ⊢
      omega

/-! ### The turns of the loop -/

namespace Globals

variable {ops : List Op} {s : Globals} {op : Op}

/-- An operation starts a pattern. -/
lemma step_start (hop : ops[s.opsI]? = some op) (hb : s.buffer = []) :
    s.step ops = .ok { s with buffer := [(op, 1)], bufferI := s.opsI, opsI := s.opsI + 1 } := by
  simp [step, item_eq_ok hop, hb, pure, Except.pure, bind, Except.bind]

/-- An operation repeats its place in the pattern. -/
lemma step_repeat (hop : ops[s.opsI]? = some op) {elem : Op × ℕ} (he : s.buffer[s.i]? = some elem)
    (hsame : compareOps elem.1 op = .ok true) {i : ℕ}
    (hi : (if s.i + 1 = s.buffer.length then 0 else s.i + 1) = i) :
    s.step ops = .ok { s with
      buffer := s.buffer.set s.i (elem.1, elem.2 + 1), i := i, opsI := s.opsI + 1 } := by
  have hb : s.buffer.length ≠ 0 := by
    have h := (List.getElem?_eq_some_iff.mp he).1
    omega
  simp [step, item_eq_ok hop, item_eq_ok he, hb, hsame, hi, pure, Except.pure, bind, Except.bind]

/-- An operation is added to a pattern that has not been repeated. -/
lemma step_push (hop : ops[s.opsI]? = some op) {o : Op} (he : s.buffer[0]? = some (o, 1))
    (hi : s.i = 0) (hsame : compareOps o op = .ok false) :
    s.step ops = .ok { s with buffer := s.buffer ++ [(op, 1)], opsI := s.opsI + 1 } := by
  have hb : s.buffer.length ≠ 0 := by
    have h := (List.getElem?_eq_some_iff.mp he).1
    omega
  simp [step, item_eq_ok hop, item_eq_ok he, hi, hb, hsame, pure, Except.pure, bind, Except.bind]

/-- An operation breaks a pattern that has been repeated. -/
lemma step_break (hop : ops[s.opsI]? = some op) {first elem : Op × ℕ}
    (h0 : s.buffer[0]? = some first) (he : s.buffer[s.i]? = some elem)
    (hsame : compareOps elem.1 op = .ok false) (hrep : ¬(s.i = 0 ∧ first.2 = 1)) :
    s.step ops = s.bufferToOpsGrouped.map fun s => { s with opsI := s.opsI + 1 } := by
  have hb : s.buffer.length ≠ 0 := by
    have h := (List.getElem?_eq_some_iff.mp he).1
    omega
  simp [step, item_eq_ok hop, item_eq_ok he, item_eq_ok h0, hb, hsame, hrep, pure,
    Except.pure, bind, Except.bind]
  cases s.bufferToOpsGrouped <;> rfl

variable {first last : Op × ℕ}

/-- A pattern broken between two repetitions. -/
lemma bufferToOpsGrouped_whole (h0 : s.buffer[0]? = some first)
    (hl : s.buffer[s.buffer.length - 1]? = some last) (heq : first.2 = last.2) :
    s.bufferToOpsGrouped = .ok
      { s.appendGroup last.2 with opsI := s.opsI - 1, buffer := [], i := 0 } := by
  simp [bufferToOpsGrouped, item_eq_ok h0, item_eq_ok hl, heq, appendGroup, pure, Except.pure, bind,
    Except.bind]

/-- A pattern broken within its first repetition. -/
lemma bufferToOpsGrouped_once (h0 : s.buffer[0]? = some first)
    (hl : s.buffer[s.buffer.length - 1]? = some last) (h2 : first.2 = 2) (h1 : last.2 = 1)
    {second : Op × ℕ} (hs : s.buffer[1]? = some second)
    (hne : compareOps first.1 second.1 = .ok false) :
    s.bufferToOpsGrouped = .ok { s.appendOp first.1 with
      opsI := s.opsI - (s.buffer.map Prod.snd).sum, buffer := [], i := 0 } := by
  simp [bufferToOpsGrouped, item_eq_ok h0, item_eq_ok hl, item_eq_ok hs, h2, h1,
    hne, appendOp, pure, Except.pure, bind, Except.bind]

/-- A pattern broken within a later repetition. -/
lemma bufferToOpsGrouped_many (h0 : s.buffer[0]? = some first)
    (hl : s.buffer[s.buffer.length - 1]? = some last) (h2 : 2 < first.2) (hne : first.2 ≠ last.2) :
    s.bufferToOpsGrouped = .ok { s.appendGroup last.2 with
      opsI := s.opsI - s.buffer.length, buffer := [], i := 0 } := by
  simp [bufferToOpsGrouped, item_eq_ok h0, item_eq_ok hl, hne, h2, h2.ne', appendGroup, pure,
    Except.pure, bind, Except.bind]

/-- A repeated pattern is left in the buffer. -/
lemma flush_group (h0 : s.buffer[0]? = some first)
    (h : 2 < first.2 ∨ (first.2 = 2 ∧ s.buffer.length = 1)) :
    s.flush = { s.appendGroup first.2 with
      bufferI := s.bufferI + (s.buffer.map Prod.snd).sum, buffer := [] } := by
  cases hb : s.buffer with
  | nil => simp [hb] at h0
  | cons e rest =>
      rw [hb, List.getElem?_cons_zero, Option.some.injEq] at h0
      rw [hb] at h
      subst h0
      simp only [flush, hb, if_pos h, appendGroup]

/-- Another pattern is left in the buffer. -/
lemma flush_op (h0 : s.buffer[0]? = some first)
    (h : ¬(2 < first.2 ∨ (first.2 = 2 ∧ s.buffer.length = 1))) :
    s.flush = { s.appendOp first.1 with buffer := [] } := by
  cases hb : s.buffer with
  | nil => simp [hb] at h0
  | cons e rest =>
      rw [hb, List.getElem?_cons_zero, Option.some.injEq] at h0
      rw [hb] at h
      subst h0
      simp only [flush, hb, if_neg h, appendOp]

end Globals

/-- A call of `group_ops` that looks for the start of a pattern. -/
def fresh (ops : List Op) (out : List (Entry × ℕ)) (j b : ℕ) : Call := ⟨ops, ⟨out, [], j, b, 0⟩⟩

/-- A call of `group_ops` that has read `k` operations from the index `b` on, the first `p` of which
are the pattern. -/
def built (ops : List Op) (out : List (Entry × ℕ)) (b p k : ℕ) : Call :=
  ⟨ops, ⟨out, fill (ops.drop b) p k, b + k, b, k % p⟩⟩

/-- The operations from an index on, as `compare_ops` sees them. -/
def bares (ops : List Op) (b : ℕ) : List Op := (ops.drop b).map Op.bare

/-- One turn. -/
def Turn (limit : ℕ) (c c' : Call) : Prop := c.next limit = .ok (.inl c')

variable {limit b j : ℕ} {ops : List Op} {out : List (Entry × ℕ)}

@[simp] lemma length_bares : (bares ops b).length = ops.length - b := by
  simp [bares]

lemma getElem?_bares : (bares ops b)[t]? = ops[b + t]?.map Op.bare := by
  simp [bares]

lemma getElem?_fill_drop (ht : t < p) (hlen : b + t < ops.length) :
    (fill (ops.drop b) p k)[t]? = some (ops[b + t], k / p + if t < k % p then 1 else 0) := by
  rw [getElem?_fill ht, List.getElem?_drop, List.getElem?_eq_getElem hlen]
  rfl

/-- Two operations of the list compared. -/
lemma compareOps_getElem (hops : ∀ op ∈ ops, op ≠ .fault) (ht : b + t < ops.length)
    (hk : b + k < ops.length) :
    compareOps ops[b + t] ops[b + k] = .ok (decide ((bares ops b)[t]? = (bares ops b)[k]?)) := by
  rw [compareOps_eq (hops _ (List.getElem_mem ht)), getElem?_bares, getElem?_bares,
    List.getElem?_eq_getElem ht, List.getElem?_eq_getElem hk]
  simp

/-- A turn of the loop is a run of its body. -/
lemma turn_of_step {c : Call} (hi : c.globals.opsI < c.ops.length)
    (hb : c.globals.buffer.length < limit) {s : Globals} (hs : c.globals.step c.ops = .ok s) :
    Turn limit c ⟨c.ops, s⟩ := by
  rw [Turn, Call.next, if_pos ⟨hi, hb⟩, hs]
  rfl

/-- An operation starts a pattern. -/
lemma turn_fresh (hj : j < ops.length) (hlimit : 0 < limit) :
    Turn limit (fresh ops out j b) (built ops out j 1 1) := by
  have hop : ops[j]? = some ops[j] := List.getElem?_eq_getElem hj
  have hs := Globals.step_start (s := (fresh ops out j b).globals) hop rfl
  have hfill : [(ops[j], 1)] = fill (ops.drop j) 1 1 := by
    have h := fill_push (w := ops.drop j) (p := 0) (o := ops[j]) (by simp [hop])
    simpa [fill] using h
  rw [hfill] at hs
  exact turn_of_step (c := fresh ops out j b) hj hlimit hs

lemma length_buffer_lt (hlimit : p < limit) :
    (built ops out b p k).globals.buffer.length < limit := by
  simp only [built, length_fill]
  omega

/-- An operation that is not the first one of a pattern not repeated yet. -/
lemma turn_push (hops : ∀ op ∈ ops, op ≠ .fault) (hp : 0 < p) (hlimit : p < limit)
    (hlen : b + p < ops.length) (hne : (bares ops b)[p]? ≠ (bares ops b)[0]?) :
    Turn limit (built ops out b p p) (built ops out b (p + 1) (p + 1)) := by
  have hop : ops[b + p]? = some ops[b + p] := List.getElem?_eq_getElem hlen
  have he : (built ops out b p p).globals.buffer[0]? = some (ops[b + 0], 1) := by
    refine (getElem?_fill_drop hp (by omega)).trans ?_
    simp [Nat.div_self hp]
  have hcmp := compareOps_getElem (t := 0) (k := p) hops (by omega) hlen
  rw [decide_eq_false hne.symm] at hcmp
  have hs := Globals.step_push (s := (built ops out b p p).globals) hop he (Nat.mod_self p) hcmp
  have ht := turn_of_step (c := built ops out b p p) hlen (length_buffer_lt hlimit) hs
  have hfill : fill (ops.drop b) p p ++ [(ops[b + p], 1)] = fill (ops.drop b) (p + 1) (p + 1) :=
    fill_push (by rw [List.getElem?_drop, hop])
  simpa only [built, hfill, Nat.mod_self, Nat.add_assoc] using ht

/-- The index after one more operation of a repetition. -/
lemma succ_mod (hp : 0 < p) : (if k % p + 1 = p then 0 else k % p + 1) = (k + 1) % p := by
  have hlt : k % p < p := Nat.mod_lt k hp
  rw [← Nat.mod_add_mod]
  split
  · rename_i h
    rw [h, Nat.mod_self]
  · exact (Nat.mod_eq_of_lt (by omega)).symm

/-- An operation of a repetition. -/
lemma turn_repeat (hops : ∀ op ∈ ops, op ≠ .fault) (hp : 0 < p) (hpk : p ≤ k) (hlimit : p < limit)
    (hlen : b + k < ops.length) (hk : k < stretch p (bares ops b)) :
    Turn limit (built ops out b p k) (built ops out b p (k + 1)) := by
  have hmod : k % p < p := Nat.mod_lt k hp
  have hop : ops[b + k]? = some ops[b + k] := List.getElem?_eq_getElem hlen
  have he : (built ops out b p k).globals.buffer[k % p]?
      = some (ops[b + k % p], k / p + if k % p < k % p then 1 else 0) :=
    getElem?_fill_drop hmod (by omega)
  have heq : (bares ops b)[k % p]? = (bares ops b)[k]? :=
    getElem?_mod hk (by rw [length_bares]; omega)
  have hcmp := compareOps_getElem (t := k % p) (k := k) hops (by omega) hlen
  rw [decide_eq_true heq] at hcmp
  have hi : (if k % p + 1 = (fill (ops.drop b) p k).length then 0 else k % p + 1)
      = (k + 1) % p := by
    rw [length_fill, List.length_drop, Nat.min_eq_left (by omega), succ_mod hp]
  have hs := Globals.step_repeat (s := (built ops out b p k).globals) hop he hcmp hi
  have ht := turn_of_step (c := built ops out b p k) hlen (length_buffer_lt hlimit) hs
  have hfill := fill_set (w := ops.drop b) (k := k) hp he
  dsimp only [built] at ht hfill ⊢
  rwa [hfill, Nat.add_assoc] at ht

/-! ### The end of a buffer -/

/-- What is reported for a buffer started at the head of the remaining operations. -/
def Reports (limit : ℕ) (l : List Op) (e : Entry × ℕ) : Prop :=
  e.1.ops.map Op.bare = l.take (round limit l).length ∧ e.2 = (round limit l).reps

/-- The pattern of a buffer that has been repeated is as long as the first operation takes to come
again. -/
lemma returnTime_eq {l : List Op} (hp : 0 < p) (hfirst : p ≤ returnTime l) (hpk : p < k)
    (hk : k ≤ stretch p l) : p = returnTime l := by
  by_contra hne
  have hlt : p < returnTime l := lt_of_le_of_ne hfirst hne
  exact getElem?_ne_head hp hlt (getElem?_of_lt_stretch (t := 0) (by omega))

/-- The pattern of a buffer as a group. -/
lemma map_bare_fill : ((fill w p k).map fun e => e.1.bare) = (w.map Op.bare).take p := by
  refine List.ext_getElem? fun t => ?_
  rw [List.getElem?_map]
  rcases Nat.lt_or_ge t p with ht | ht
  · rw [getElem?_fill ht, List.getElem?_take_of_lt ht, List.getElem?_map]
    cases w[t]? <;> rfl
  · rw [getElem?_fill_of_ge ht, List.getElem?_take_eq_none ht]
    rfl

lemma map_bare_bares : (bares ops b).map Op.bare = bares ops b := by
  rw [bares, List.map_map]
  exact List.map_congr_left fun o _ => by cases o <;> rfl

/-- The pattern reported as a group. -/
lemma reports_group (k : ℕ) {n m : ℕ} (hround : round limit (bares ops b) = ⟨p, n, m⟩) :
    Reports limit (bares ops b) (.group ((fill (ops.drop b) p k).map fun e => e.1.bare), n) := by
  refine ⟨?_, by rw [hround]⟩
  rw [hround, map_bare_fill, Entry.ops, List.map_take]
  exact congrArg (List.take p) map_bare_bares

/-- The first operation reported on its own. -/
lemma reports_op (hround : round limit (bares ops b) = ⟨1, 1, 1⟩) (hb : b + 0 < ops.length) :
    Reports limit (bares ops b) (.op ops[b + 0], 1) := by
  refine ⟨?_, by rw [hround]⟩
  have hb' : b < ops.length := hb
  rw [hround, Entry.ops, bares, List.drop_eq_getElem_cons hb']
  rfl

/-- The element of the buffer at the place of an operation. -/
lemma getElem?_built (out : List (Entry × ℕ)) (k : ℕ) (ht : t < p) (hlen : b + t < ops.length) :
    (built ops out b p k).globals.buffer[t]?
      = some (ops[b + t], k / p + if t < k % p then 1 else 0) :=
  getElem?_fill_drop ht hlen

/-- The last element of the buffer, which counts the whole repetitions. -/
lemma getElem?_built_last (out : List (Entry × ℕ)) (k : ℕ) (hp : 0 < p)
    (hlen : b + p ≤ ops.length) :
    (built ops out b p k).globals.buffer[(built ops out b p k).globals.buffer.length - 1]?
      = some (ops[b + (p - 1)], k / p) := by
  have hmod : k % p < p := Nat.mod_lt k hp
  have hlength : (built ops out b p k).globals.buffer.length = p := by
    simp only [built, length_fill, List.length_drop]
    omega
  rw [hlength, getElem?_built out k (Nat.sub_lt hp Nat.one_pos) (by omega),
    if_neg (by omega), Nat.add_zero]

/-- After the longest stretch, the next operation is not the one at its place in the pattern. -/
lemma getElem?_mod_ne {l : List Op} (hp : 0 < p) (hk : stretch p l = k) (hpk : p ≤ k)
    (hlen : k < l.length) : l[k % p]? ≠ l[k]? := by
  have hne : l[stretch p l]? ≠ l[stretch p l - p]? := getElem?_stretch_ne (by omega)
  have heq : l[(k - p) % p]? = l[k - p]? := getElem?_mod (by omega) (by omega)
  have hmod : (k - p) % p = k % p := (Nat.mod_eq_sub_mod hpk).symm
  rw [hk] at hne
  rw [← hmod, heq]
  exact hne.symm

/-- An operation breaks the pattern: the buffer is written out, and the next one starts as far as
the round says. -/
lemma turn_break (out : List (Entry × ℕ)) (hops : ∀ op ∈ ops, op ≠ .fault) (hp : 0 < p)
    (hpk : p < k) (hlimit : p < limit) (hlen : b + k < ops.length)
    (hfirst : p ≤ returnTime (bares ops b)) (hk : stretch p (bares ops b) = k) :
    ∃ e, Reports limit (bares ops b) e ∧
      Turn limit (built ops out b p k)
        (fresh ops (out ++ [e]) (b + (round limit (bares ops b)).advance) b) := by
  have hmod : k % p < p := Nat.mod_lt k hp
  have hlenl : k < (bares ops b).length := by
    rw [length_bares]
    omega
  have hreturn := returnTime_eq hp hfirst hpk hk.ge
  have hop : ops[b + k]? = some ops[b + k] := List.getElem?_eq_getElem hlen
  have h0 := getElem?_built (b := b) out k hp (show b + 0 < ops.length by omega)
  have he := getElem?_built (b := b) out k hmod (show b + k % p < ops.length by omega)
  have hlast := getElem?_built_last out k hp (show b + p ≤ ops.length by omega)
  have hcmp := compareOps_getElem (t := k % p) (k := k) hops (by omega) hlen
  rw [decide_eq_false (getElem?_mod_ne hp hk hpk.le hlenl)] at hcmp
  have hq : 1 ≤ k / p := Nat.div_pos hpk.le hp
  have hdiv : k % p + p * (k / p) = k := Nat.mod_add_div k p
  have hrep : ¬(k % p = 0 ∧ (k / p + if 0 < k % p then 1 else 0) = 1) := by
    rintro ⟨hr, h1⟩
    rw [hr, if_neg (lt_irrefl 0), Nat.add_zero] at h1
    rw [hr, h1] at hdiv
    omega
  have hs := Globals.step_break (s := (built ops out b p k).globals) hop h0 he hcmp hrep
  have hturn : ∀ s, (built ops out b p k).globals.bufferToOpsGrouped = .ok s →
      Turn limit (built ops out b p k) ⟨ops, { s with opsI := s.opsI + 1 }⟩ := fun s hb => by
    rw [hb] at hs
    exact turn_of_step (c := built ops out b p k) hlen (length_buffer_lt hlimit) hs
  rcases Nat.eq_zero_or_pos (k % p) with hr | hr
  · -- Between two repetitions.
    have h2 : 2 * p ≤ k := by
      refine (Nat.le_div_iff_mul_le hp).mp (Nat.lt_of_le_of_ne hq fun h1 => ?_)
      rw [hr, ← h1] at hdiv
      omega
    have hround : round limit (bares ops b) = ⟨p, k / p, k⟩ := by
      rw [round_of_break hreturn hk hlimit h2 hlenl, if_pos hr]
    have ht := hturn _ (Globals.bufferToOpsGrouped_whole h0 hlast (by simp [hr]))
    have hj : b + k - 1 + 1 = b + k := by omega
    refine ⟨_, reports_group k hround, ?_⟩
    rw [hround]
    simpa only [fresh, built, Globals.appendGroup, hj] using ht
  · have h0r : (k / p + if 0 < k % p then 1 else 0) = k / p + 1 := by rw [if_pos hr]
    rcases Nat.lt_or_ge k (2 * p) with h2 | h2
    · -- Within the first repetition.
      have hround : round limit (bares ops b) = ⟨1, 1, 1⟩ := round_of_lt hreturn hk h2
      have hq1 : k / p = 1 :=
        Nat.le_antisymm (Nat.lt_succ_iff.mp ((Nat.div_lt_iff_lt_mul hp).mpr h2)) hq
      have h1p : 1 < p := by omega
      have hsecond := getElem?_built (b := b) out k h1p (show b + 1 < ops.length by omega)
      have hne := compareOps_getElem (t := 0) (k := 1) hops (by omega)
        (show b + 1 < ops.length by omega)
      rw [decide_eq_false (getElem?_ne_head Nat.one_pos (h1p.trans_le hfirst)).symm] at hne
      have ht := hturn _ (Globals.bufferToOpsGrouped_once h0 hlast (h0r.trans (by rw [hq1]))
        hq1 hsecond hne)
      have hsum : ((built ops out b p k).globals.buffer.map Prod.snd).sum = k :=
        sum_fill hp hpk.le (by rw [List.length_drop]; omega)
      have hj : b + k - k + 1 = b + 1 := by omega
      refine ⟨_, reports_op hround (by omega), ?_⟩
      rw [hround]
      rw [hsum] at ht
      simpa only [fresh, built, Globals.appendOp, hj] using ht
    · -- Within a later one.
      have hround : round limit (bares ops b) = ⟨p, k / p, k - p + 1⟩ := by
        rw [round_of_break hreturn hk hlimit h2 hlenl, if_neg hr.ne']
      have hq2 : 2 ≤ k / p := (Nat.le_div_iff_mul_le hp).mpr h2
      have ht := hturn _ (Globals.bufferToOpsGrouped_many h0 hlast (by simp only [h0r]; omega)
        (by simp only [h0r]; omega))
      have hlength : (built ops out b p k).globals.buffer.length = p := by
        simp only [built, length_fill, List.length_drop]
        omega
      have hj : b + k - p + 1 = b + (k - p + 1) := by omega
      refine ⟨_, reports_group k hround, ?_⟩
      rw [hround]
      rw [hlength] at ht
      simpa only [fresh, built, Globals.appendGroup, hj] using ht

/-- When a buffer is left as a group: two repetitions or more, other than two of several
operations. -/
lemma flush_iff (hp : 0 < p) (hpk : p ≤ k) {n : ℕ} (hn : n = k / p + if 0 < k % p then 1 else 0) :
    (2 < n ∨ (n = 2 ∧ p = 1)) ↔ 2 * p ≤ k ∧ ¬(k = 2 * p ∧ 1 < p) := by
  have hdiv : k % p + p * (k / p) = k := Nat.mod_add_div k p
  have hmod : k % p < p := Nat.mod_lt k hp
  obtain ⟨m, hm⟩ : ∃ m, k / p = m + 1 := ⟨k / p - 1, by have := Nat.div_pos hpk hp; omega⟩
  rw [hm, Nat.mul_add] at hdiv
  rw [hm] at hn
  rcases m with _ | _ | m
  · split at hn <;> omega
  · split at hn <;> omega
  · have h3 : p * (m + 1 + 1) = p * m + 2 * p := by ring
    split at hn <;> omega

/-- A buffer that is not left as a group is a round of one operation. -/
lemma round_of_flush_op (hp : 0 < p) (hpk : p ≤ k) {l : List Op} (hlen : k ≤ l.length)
    (hend : k = l.length ∨ p = limit) (hrep : p < k → p < limit) (hfirst : p ≤ returnTime l)
    (hk : k ≤ stretch p l) (h : ¬(2 * p ≤ k ∧ ¬(k = 2 * p ∧ 1 < p))) :
    round limit l = ⟨1, 1, 1⟩ := by
  have hle : stretch p l ≤ l.length := stretch_le (hpk.trans hlen)
  rcases eq_or_lt_of_le hpk with rfl | hlt
  · rcases hend with hend | hend
    · have hreturn : p = returnTime l := le_antisymm hfirst (hend ▸ returnTime_le l)
      exact round_of_lt hreturn rfl (by omega)
    · exact round_of_not fun hr => absurd (hend ▸ hfirst) (not_le_of_gt hr.1.1)
  · have hreturn := returnTime_eq hp hfirst hlt hk
    have hlimit := hrep hlt
    have hstretch : stretch p l = k := by omega
    rcases Nat.lt_or_ge k (2 * p) with h2 | h2
    · exact round_of_lt hreturn hstretch h2
    · have htwice : k = 2 * p ∧ 1 < p := not_not.mp fun hn => h ⟨h2, hn⟩
      refine round_of_not fun hr => hr.2 ?_
      rw [Twice, ← hreturn]
      omega

/-- The loop ends: the buffer is written out, and the call ends, or the next one starts as far as
the round says. -/
lemma next_flush (out : List (Entry × ℕ)) (hp : 0 < p) (hpk : p ≤ k) (hlen : b + k ≤ ops.length)
    (hend : b + k = ops.length ∨ p = limit) (hrep : p < k → p < limit)
    (hfirst : p ≤ returnTime (bares ops b)) (hk : k ≤ stretch p (bares ops b)) :
    ∃ e, Reports limit (bares ops b) e ∧
      let j := b + (round limit (bares ops b)).advance
      if j < ops.length then
        Turn limit (built ops out b p k) (fresh (ops.drop j) (out ++ [e]) 0 b)
      else ∃ s, (built ops out b p k).next limit = .ok (.inr s) ∧ s.opsGrouped = out ++ [e] := by
  have hlength : (built ops out b p k).globals.buffer.length = p := by
    simp only [built, length_fill, List.length_drop]
    omega
  have hlenl : k ≤ (bares ops b).length := by
    rw [length_bares]
    omega
  have hloop : ¬((built ops out b p k).globals.opsI < (built ops out b p k).ops.length
      ∧ (built ops out b p k).globals.buffer.length < limit) := by
    rintro ⟨h1, h2⟩
    rw [hlength] at h2
    have h1' : b + k < ops.length := h1
    omega
  have h0 := getElem?_built (b := b) out k hp (show b + 0 < ops.length by omega)
  have hiff := flush_iff hp hpk (n := k / p + if 0 < k % p then 1 else 0) rfl
  by_cases hgroup : 2 * p ≤ k ∧ ¬(k = 2 * p ∧ 1 < p)
  · -- the list ends in a pattern that is worth a group
    have hlt : p < k := by omega
    have hlimit := hrep hlt
    have hall : b + k = ops.length := hend.resolve_right hlimit.ne
    have hle : stretch p (bares ops b) ≤ (bares ops b).length := stretch_le (hpk.trans hlenl)
    have hlenk : k = (bares ops b).length := by
      rw [length_bares]
      omega
    have hround := round_of_end (returnTime_eq hp hfirst hlt hk) (by omega) hlimit hgroup.1 hlenk
      hgroup.2
    have hflush := Globals.flush_group h0 (by rw [hlength]; exact hiff.mpr hgroup)
    have hsum : ((built ops out b p k).globals.buffer.map Prod.snd).sum = k :=
      sum_fill hp hpk (by rw [List.length_drop]; omega)
    refine ⟨_, reports_group k hround, ?_⟩
    rw [hround]
    dsimp only
    rw [if_neg (by omega)]
    refine ⟨(built ops out b p k).globals.flush, ?_, by rw [hflush]; rfl⟩
    rw [Call.next, if_neg hloop]
    refine if_neg fun h => ?_
    rw [hflush, hsum] at h
    have h' : b + k < ops.length - 1 := h
    omega
  · -- it is flushed as an operation
    have hround := round_of_flush_op hp hpk hlenl (by rw [length_bares]; omega)
      hrep hfirst hk hgroup
    have hflush := Globals.flush_op h0 (by rw [hlength]; exact fun h => hgroup (hiff.mp h))
    refine ⟨_, reports_op hround (by omega), ?_⟩
    rw [hround]
    dsimp only
    split
    · rename_i hj
      rw [Turn, Call.next, if_neg hloop, hflush]
      exact if_pos (show b < ops.length - 1 by omega)
    · rename_i hj
      refine ⟨(built ops out b p k).globals.flush, ?_, by rw [hflush]; rfl⟩
      rw [Call.next, if_neg hloop, hflush]
      exact if_neg (show ¬b < ops.length - 1 by omega)

end LazyFS.LogParse
