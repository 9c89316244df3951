import Mathlib.Tactic
import Mathlib.Data.List.PeriodicityLemma

/-!
The repetition a list starts with.

* `overlap`: how long two lists agree.
* `returnTime`: where the first element comes again, the length of the list if it does not.
* `stretch`: the length of the longest prefix with a given period; `hasPeriod_take` and
  `getElem?_stretch_ne` say that it is the longest.
* `take_mul`: whole repetitions are copies of the first one.
-/

namespace Periods

variable {α : Type*} [DecidableEq α]

/-! ### Overlap -/

/-- The number of places, from the first on, in which two lists agree. -/
def overlap : List α → List α → ℕ
  | a :: l, b :: l' => if a = b then overlap l l' + 1 else 0
  | _, _ => 0

@[simp] lemma overlap_nil_left (l : List α) : overlap [] l = 0 := rfl

@[simp] lemma overlap_nil_right (l : List α) : overlap l [] = 0 := by
  cases l <;> rfl

lemma overlap_cons (a b : α) (l l' : List α) :
    overlap (a :: l) (b :: l') = if a = b then overlap l l' + 1 else 0 := rfl

lemma overlap_le_left (l l' : List α) : overlap l l' ≤ l.length := by
  induction l generalizing l' with
  | nil => simp
  | cons a l ih =>
      cases l' with
      | nil => simp
      | cons b l' =>
          rw [overlap_cons]
          have h := ih l'
          split
          · simp only [List.length_cons]
            omega
          · exact Nat.zero_le _

/-- Below the overlap the lists agree. -/
lemma getElem?_of_lt_overlap {l l' : List α} {t : ℕ} (h : t < overlap l l') : l[t]? = l'[t]? := by
  induction l generalizing l' t with
  | nil => simp at h
  | cons a l ih =>
      cases l' with
      | nil => simp at h
      | cons b l' =>
          rw [overlap_cons] at h
          split at h
          · rename_i hab
            cases t with
            | zero => simp [hab]
            | succ t => simpa using ih (Nat.lt_of_succ_lt_succ h)
          · exact absurd h (Nat.not_lt_zero t)

/-- Where the overlap ends before the first list does, the lists differ. -/
lemma getElem?_overlap_ne {l l' : List α} (h : overlap l l' < l.length) :
    l[overlap l l']? ≠ l'[overlap l l']? := by
  induction l generalizing l' with
  | nil => simp at h
  | cons a l ih =>
      cases l' with
      | nil => simp
      | cons b l' =>
          rw [overlap_cons] at h ⊢
          split
          · rename_i hab
            rw [if_pos hab, List.length_cons] at h
            simpa using ih (Nat.lt_of_succ_lt_succ h)
          · rename_i hab
            simpa using hab

/-! ### The first element again -/

/-- The index at which the first element of a list comes again, the length if it does not. -/
def returnTime : List α → ℕ
  | [] => 0
  | x :: rest => rest.idxOf x + 1

lemma returnTime_pos {l : List α} (h : l ≠ []) : 0 < returnTime l := by
  cases l with
  | nil => exact absurd rfl h
  | cons x rest => exact Nat.succ_pos _

lemma returnTime_le (l : List α) : returnTime l ≤ l.length := by
  cases l with
  | nil => exact le_rfl
  | cons x rest => exact Nat.succ_le_succ List.idxOf_le_length

/-- Before it comes again, no element is the first one. -/
lemma getElem?_ne_head {l : List α} {t : ℕ} (h0 : 0 < t) (ht : t < returnTime l) :
    l[t]? ≠ l[0]? := by
  cases l with
  | nil => exact absurd ht (Nat.not_lt_zero t)
  | cons x rest =>
      obtain ⟨t, rfl⟩ : ∃ u, t = u + 1 := ⟨t - 1, by omega⟩
      have hlt : t < rest.idxOf x := Nat.lt_of_succ_lt_succ ht
      have hlen : t < rest.length := hlt.trans_le List.idxOf_le_length
      have hne := List.not_of_lt_findIdx hlt
      simpa [List.getElem?_eq_getElem hlen] using hne

lemma getElem?_returnTime {l : List α} (h : returnTime l < l.length) :
    l[returnTime l]? = l[0]? := by
  cases l with
  | nil => exact absurd h (Nat.not_lt_zero _)
  | cons x rest =>
      have hlt : rest.idxOf x < rest.length := Nat.lt_of_succ_lt_succ h
      simp [returnTime, List.getElem?_eq_getElem hlt]

/-! ### The longest prefix with a period -/

/-- The length of the longest prefix of `l` with the period `p`. -/
def stretch (p : ℕ) (l : List α) : ℕ := p + overlap (l.drop p) l

lemma le_stretch (p : ℕ) (l : List α) : p ≤ stretch p l := Nat.le_add_right _ _

lemma stretch_le {p : ℕ} {l : List α} (h : p ≤ l.length) : stretch p l ≤ l.length := by
  have hle := overlap_le_left (l.drop p) l
  rw [List.length_drop] at hle
  rw [stretch]
  omega

/-- Within the stretch, an element is the one a period before it. -/
lemma getElem?_of_lt_stretch {p t : ℕ} {l : List α} (ht : p + t < stretch p l) :
    l[p + t]? = l[t]? := by
  have h : t < overlap (l.drop p) l := by
    rw [stretch] at ht
    omega
  rw [← getElem?_of_lt_overlap h, List.getElem?_drop]

/-- The element after the stretch is not the one a period before it. -/
lemma getElem?_stretch_ne {p : ℕ} {l : List α} (h : stretch p l < l.length) :
    l[stretch p l]? ≠ l[stretch p l - p]? := by
  have hlt : overlap (l.drop p) l < (l.drop p).length := by
    rw [stretch] at h
    rw [List.length_drop]
    omega
  have hne := getElem?_overlap_ne hlt
  rw [List.getElem?_drop] at hne
  rwa [stretch, Nat.add_sub_cancel_left]

/-- A prefix no longer than the stretch has the period. -/
lemma hasPeriod_take {p k : ℕ} {l : List α} (hk : k ≤ stretch p l) : (l.take k).HasPeriod p := by
  rw [List.hasPeriod_iff_getElem?]
  intro t ht
  have hlt : t + p < k := by
    rw [List.length_take] at ht
    omega
  rw [List.getElem?_take_of_lt (by omega), List.getElem?_take_of_lt hlt, Nat.add_comm t p,
    getElem?_of_lt_stretch (by omega)]

/-- Within the stretch, an element is the one of the first repetition at its place. -/
lemma getElem?_mod {p k : ℕ} {l : List α} (hk : k < stretch p l) (hl : k < l.length) :
    l[k % p]? = l[k]? := by
  have hlen : k < (l.take (k + 1)).length := by
    rw [List.length_take]
    omega
  have h := (hasPeriod_take (k := k + 1) hk).getElem?_mod p k _ hlen
  rwa [List.getElem?_take_of_lt (by have := Nat.mod_le k p; omega),
    List.getElem?_take_of_lt (Nat.lt_succ_self k)] at h

/-- **Whole repetitions are copies of the first one.** -/
lemma take_mul {p q : ℕ} {l : List α} (hq : q * p ≤ stretch p l) (hl : q * p ≤ l.length) :
    l.take (q * p) = (List.replicate q (l.take p)).flatten := by
  induction q with
  | zero => simp
  | succ q ih =>
      have hmul : (q + 1) * p = q * p + p := Nat.succ_mul q p
      have hblock : (l.drop (q * p)).take p = l.take p := by
        refine List.ext_getElem? fun t => ?_
        rcases Nat.lt_or_ge t p with ht | ht
        · rw [List.getElem?_take_of_lt ht, List.getElem?_take_of_lt ht, List.getElem?_drop,
            ← getElem?_mod (p := p) (by omega) (by omega), Nat.mul_add_mod', Nat.mod_eq_of_lt ht]
        · rw [List.getElem?_take_eq_none ht, List.getElem?_take_eq_none ht]
      rw [hmul, List.take_add, ih (by omega) (by omega), hblock, List.replicate_succ']
      simp

end Periods
