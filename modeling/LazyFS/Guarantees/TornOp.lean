import LazyFS.File.Kept
import LazyFS.Hooks.Parts

/-!
**Torn-op faults**: the bytes that `split_write` sends, against the parts the fault names.

* `SplitWriteF.Sized`: a fault given by the bytes of its parts; `tears_sized_iff`: when exactly the
  parts named are written, and nothing when they do not add up.
* `SplitWriteF.Even`: a fault given by the number of its parts; `tears_even_iff`: when the bytes
  sent are those of the parts named.
* `far_part_missed`, `remainder_misplaced`: a part past `2^31`, and a remainder that is sent with a
  part it does not belong to.
-/

namespace LazyFS

open Program Lfs

variable {s s' : Lfs} {w : Write} {io : TornIo} {d : Disk} {fd : Fd} {f : SplitWriteF}

/-! ### Parts of given sizes -/

namespace SplitWriteF

/-- The fault is given by the bytes of its parts, and `persist` names some of these. -/
structure Sized (f : SplitWriteF) : Prop where
  parts : f.parts = -1
  positive : ∀ b ∈ f.partsBytes, 0 < b
  within : ∀ j ∈ f.persist, 1 ≤ j ∧ j ≤ f.partsBytes.length

/-- The first byte of a part in the buffer. -/
def start (f : SplitWriteF) (j : ℤ) : ℤ := (f.partsBytes.take (j - 1).toNat).sum

/-- The parts that the fault names, each at its offset. -/
def sizedParts (f : SplitWriteF) (w : Write) : List Sent :=
  f.persist.map fun j =>
    (Bytes.slice w.buf (f.start j).toNat (f.partsBytes.getD (j - 1).toNat 0).toNat,
      w.offset + f.start j)

/-- The check of `split_write`: the sum of the parts as an `int`, compared with a `size_t`. -/
def AddsUp (f : SplitWriteF) (size : ℕ) : Prop := toInt f.partsBytes.sum % 2 ^ 64 = size

/-- The writes of a size at an offset that are torn as the fault says. -/
def SizedOk (f : SplitWriteF) (size offset : ℕ) : Prop :=
  (f.partsBytes.sum = size →
      f.persist = [] ∨ f.AddsUp size ∧ ∀ j ∈ f.persist, offset + f.start j < 2 ^ 31) ∧
    (f.partsBytes.sum ≠ size → f.persist ≠ [] ∧ ¬ f.AddsUp size)

end SplitWriteF

/-- Exactly the parts named are written where the parts add up; otherwise nothing is, and no crash
fault is armed. -/
structure TearsSized (f : SplitWriteF) (w : Write) (d : Disk) (fd : Fd) (s s' : Lfs) : Prop where
  equal : f.partsBytes.sum = w.buf.length →
    s'.parts = (f.sizedParts w).reverse ++ s.parts ∧ s'.fs.disk = d.sendParts fd (f.sizedParts w)
  unequal : f.partsBytes.sum ≠ w.buf.length →
    s'.parts = s.parts ∧ s'.fs.disk = d ∧ s'.torn.armed = s.torn.armed

namespace SplitWriteF

/-- The parts as `split_write` keeps them. -/
def keptParts (f : SplitWriteF) (offset : ℕ) : List Part :=
  f.persist.map fun j =>
    (toInt (f.start j), f.partsBytes.getD (j - 1).toNat 0, toInt (offset + toInt (f.start j)))

variable {size offset : ℕ}

lemma splitParts_of_not_addsUp (hf : f.Sized) (hne : f.persist ≠ []) (h : ¬ f.AddsUp size) :
    splitParts f size offset = none := by
  rw [splitParts, if_pos hf.parts]
  obtain ⟨j, l, hl⟩ := List.exists_cons_of_ne_nil hne
  rw [hl, List.mapM_cons]
  have hne' : toInt f.partsBytes.sum % 2 ^ 64 ≠ size := h
  dsimp only
  rw [if_pos hne']
  rfl

lemma splitParts_of_addsUp (hf : f.Sized) (h : f.persist = [] ∨ f.AddsUp size) :
    splitParts f size offset = some (f.keptParts offset) := by
  rw [splitParts, if_pos hf.parts, keptParts]
  rcases h with h | h
  · rw [h]
    rfl
  · dsimp only
    have hnot : ¬ toInt f.partsBytes.sum % 2 ^ 64 ≠ size := not_not.mpr h
    simp only [if_neg hnot]
    exact List.mapM_pure

lemma start_nonneg (hf : f.Sized) (j : ℤ) : 0 ≤ f.start j :=
  List.sum_nonneg fun b hb => (hf.positive b (List.mem_of_mem_take hb)).le

/-- A part that starts early enough is kept as it is. -/
lemma kept_of_lt (hf : f.Sized) {j : ℤ} (h : offset + f.start j < 2 ^ 31) :
    toInt (f.start j) = f.start j ∧ toInt (offset + toInt (f.start j)) = offset + f.start j := by
  obtain ⟨n, hn⟩ := Int.eq_ofNat_of_zero_le (start_nonneg hf j)
  rw [hn] at h ⊢
  rw [toInt_of_lt (by omega)]
  exact ⟨rfl, by exact_mod_cast toInt_of_lt (n := offset + n) (by omega)⟩

/-- A part at its own offset starts early enough. -/
lemma lt_of_kept (hf : f.Sized) {j : ℤ}
    (h : toInt (offset + toInt (f.start j)) = offset + f.start j) :
    offset + f.start j < 2 ^ 31 := by
  obtain ⟨n, hn⟩ := Int.eq_ofNat_of_zero_le (start_nonneg hf j)
  rw [toInt_add_toInt, hn] at h
  rw [hn]
  have hlt : offset + n < 2 ^ 31 := toInt_eq_iff.mp (by exact_mod_cast h)
  exact_mod_cast hlt

end SplitWriteF

/-- The loop comes to every part only if it stops at none. -/
lemma eq_attempted_of_length {ps : List Part} (h : (attempted ps).length = ps.length) :
    attempted ps = ps := by
  induction ps with
  | nil => rfl
  | cons p ps ih =>
      rw [attempted] at h ⊢
      split_ifs at h ⊢ with hp
      · rw [ih (Nat.succ.inj h)]
      · have hnil : ps.length = 0 := by
          rw [List.length_cons, List.length_cons] at h
          simpa using h.symm
        rw [List.length_eq_zero_iff.mp hnil]

/-- The parts sent are those named exactly when every one starts early enough. -/
lemma sent_eq_sizedParts_iff (hf : f.Sized) :
    (attempted (f.keptParts w.offset)).map (Part.sent w.buf) = f.sizedParts w ↔
      ∀ j ∈ f.persist, w.offset + f.start j < 2 ^ 31 := by
  constructor
  · intro h j hj
    have hlen := congrArg List.length h
    rw [List.length_map, SplitWriteF.sizedParts, List.length_map] at hlen
    have hall : attempted (f.keptParts w.offset) = f.keptParts w.offset :=
      eq_attempted_of_length (by rw [hlen, SplitWriteF.keptParts, List.length_map])
    rw [hall, SplitWriteF.keptParts, SplitWriteF.sizedParts, List.map_map] at h
    have hj' := List.map_inj_left.mp h j hj
    exact SplitWriteF.lt_of_kept hf (congrArg Prod.snd hj')
  · intro h
    have hseeks : ∀ p ∈ f.keptParts w.offset, p.Seeks := by
      intro p hp
      obtain ⟨j, hj, rfl⟩ := List.mem_map.mp hp
      have hstart := SplitWriteF.start_nonneg hf j
      have hpos : 0 ≤ toInt (w.offset + toInt (f.start j)) := by
        rw [(SplitWriteF.kept_of_lt hf (h j hj)).2]
        omega
      exact hpos
    rw [attempted_of_seeks hseeks, SplitWriteF.keptParts, SplitWriteF.sizedParts, List.map_map]
    refine List.map_congr_left fun j hj => ?_
    obtain ⟨h1, h2⟩ := SplitWriteF.kept_of_lt hf (h j hj)
    rw [Function.comp, Part.sent, h2, h1]

/-- **Parts of given sizes**: a write that triggers its fault is torn as the fault says exactly when
no part starts past `2^31` and the sum of the parts is judged right. -/
theorem tears_sized_iff (hf : f.Sized) (h : Due f w io d fd s) :
    wp (splitWrite w io) (fun _ s' => TearsSized f w d fd s s') (fun _ _ => False) s ↔
      f.SizedOk w.buf.length w.offset := by
  refine wp_iff (wp_mono (wp_splitWrite_due h) ?_ fun _ _ he => he)
  rintro r s' ⟨hnone, hsome⟩
  have hf' : SplitWriteF.Sized { f with counter := f.counter + 1 } :=
    ⟨hf.parts, hf.positive, hf.within⟩
  by_cases hsum : f.partsBytes.sum = w.buf.length
  · -- the sizes add up to the write, so parts are to be sent
    by_cases hadd : f.persist = [] ∨ f.AddsUp w.buf.length
    · obtain ⟨-, ht⟩ := hsome _ (SplitWriteF.splitParts_of_addsUp hf' hadd)
      have hiff : TearsSized f w d fd s s' ↔
          (attempted (f.keptParts w.offset)).map (Part.sent w.buf) = f.sizedParts w := by
        constructor
        · intro hT
          have hparts := (hT.equal hsum).1
          rw [ht.parts, List.append_cancel_right_eq] at hparts
          exact List.reverse_injective hparts
        · intro heq
          refine ⟨fun _ => ⟨?_, ?_⟩, fun hne => absurd hsum hne⟩
          · rw [ht.parts, ← heq]
            rfl
          · rw [ht.disk, ← heq]
            rfl
      rw [hiff, sent_eq_sizedParts_iff hf]
      constructor
      · intro hall
        refine ⟨fun _ => hadd.imp_right fun ha => ⟨ha, hall⟩, fun hne => absurd hsum hne⟩
      · rintro ⟨hok, -⟩ j hj
        rcases hok hsum with hnil | ⟨-, hall⟩
        · rw [hnil] at hj
          exact absurd hj List.not_mem_nil
        · exact hall j hj
    · -- nothing is sent, though parts are named
      push Not at hadd
      obtain ⟨-, ht⟩ := hnone (SplitWriteF.splitParts_of_not_addsUp hf' hadd.1 hadd.2)
      constructor
      · intro hT
        have hparts := (hT.equal hsum).1
        have hlen := congrArg List.length hparts
        rw [ht.parts] at hlen
        have hpos := List.length_pos_of_ne_nil hadd.1
        simp only [List.length_append, List.length_reverse, SplitWriteF.sizedParts, List.length_map,
          List.length_nil] at hlen
        omega
      · rintro ⟨hok, -⟩
        rcases hok hsum with hnil | ⟨ha, -⟩
        · exact absurd hnil hadd.1
        · exact absurd ha hadd.2
  · -- the sizes do not add up to the write, so nothing is to be sent
    by_cases hadd : f.persist = [] ∨ f.AddsUp w.buf.length
    · obtain ⟨hr, ht⟩ := hsome _ (SplitWriteF.splitParts_of_addsUp hf' hadd)
      constructor
      · intro hT
        obtain ⟨hparts, -, harmed⟩ := hT.unequal hsum
        exfalso
        have hlen := congrArg List.length hparts
        rw [ht.parts] at hlen
        simp only [List.length_append, List.length_reverse, List.length_map] at hlen
        -- a part is sent, or a crash fault is armed for none
        cases hk : SplitWriteF.keptParts { f with counter := f.counter + 1 } w.offset with
        | nil =>
            rw [hk] at hr
            rw [ht.armed, hr.mpr (by simp)] at harmed
            simp at harmed
        | cons p ps =>
            rw [hk, attempted] at hlen
            simp at hlen
      · rintro ⟨-, hok⟩
        obtain ⟨h1, h2⟩ := hok hsum
        exact absurd hadd (not_or.mpr ⟨h1, h2⟩)
    · -- nothing is sent, and no fault is armed
      push Not at hadd
      obtain ⟨-, ht⟩ := hnone (SplitWriteF.splitParts_of_not_addsUp hf' hadd.1 hadd.2)
      constructor
      · exact fun _ => ⟨fun he => absurd he hsum, fun _ => hadd⟩
      · intro _
        refine ⟨fun he => absurd he hsum, fun _ => ⟨ht.parts, ht.disk, ?_⟩⟩
        rw [ht.armed]
        exact List.append_nil _

/-- One empty file with a torn-op fault. -/
def withTornOp (f : SplitWriteF) : Lfs :=
  Lfs.new ⟨.new (.tiny 2 false), oneFile⟩ (Map.single "/f" [.splitWrite f])

/-- A write to the file. -/
def writeAt (buf : List UInt8) (offset : ℕ) : Write := ⟨["f"], buf, offset⟩

lemma due_withTornOp {f : SplitWriteF} (h : f.counter + 1 = f.occurrence) (buf : List UInt8)
    (offset : ℕ) : Due f (writeAt buf offset) {} oneFile ⟨1, false, true⟩ (withTornOp f) :=
  ⟨rfl, h, rfl, fun _ => rfl, rfl⟩

/-- The second of two bytes. -/
def secondByte : SplitWriteF := .ofPartsBytes 1 [2] [1, 1]

/-- The second of two bytes is sent, at the start of a file. -/
theorem tears_sized_iff_secondByte :
    wp (splitWrite (writeAt [97, 98] 0) {})
      (fun _ s' => TearsSized secondByte (writeAt [97, 98] 0) oneFile ⟨1, false, true⟩
        (withTornOp secondByte) s') (fun _ _ => False) (withTornOp secondByte) :=
  (tears_sized_iff ⟨rfl, by decide, by decide⟩ (due_withTornOp rfl [97, 98] 0)).mpr
    ⟨fun _ => .inr ⟨by rw [SplitWriteF.AddsUp]; decide +kernel, by decide⟩, fun hne =>
      absurd rfl hne⟩

/-- **A part past `2^31` is missed**: its offset is negative as an `int`. -/
theorem far_part_missed :
    SplitWriteF.validate 1 [2] none (some [1, 1]) = [] ∧
      ¬ wp (splitWrite (writeAt [97, 98] (2 ^ 31 - 1)) {})
        (fun _ s' => TearsSized secondByte (writeAt [97, 98] (2 ^ 31 - 1)) oneFile ⟨1, false, true⟩
          (withTornOp secondByte) s') (fun _ _ => False) (withTornOp secondByte) := by
  refine ⟨by decide, fun h => ?_⟩
  obtain ⟨r, hr⟩ := exists_ok_of_halt?
    (r := splitWrite (writeAt [97, 98] (2 ^ 31 - 1)) {} (withTornOp secondByte)) (by decide +kernel)
  have hparts := ((wp_of_ok h hr).equal rfl).1
  revert hparts
  decide +kernel

/-! ### Equal parts -/

namespace SplitWriteF

/-- The fault is given by the number of its parts, and `persist` names some of these. -/
structure Even (f : SplitWriteF) : Prop where
  parts : 1 ≤ f.parts
  named : f.persist ≠ []
  within : ∀ p ∈ f.persist, 1 ≤ p ∧ p ≤ f.parts

/-- The size of a part but for the remainder. -/
def partSize (f : SplitWriteF) (size : ℕ) : ℕ := size / f.parts.toNat

/-- The bytes that the parts leave over. -/
def remainder (f : SplitWriteF) (size : ℕ) : ℕ := size % f.parts.toNat

/-- A byte of a write belongs to a part: the last part takes what is left over. -/
def InPart (f : SplitWriteF) (size : ℕ) (p : ℤ) (k : ℕ) : Prop :=
  (p - 1).toNat * f.partSize size ≤ k ∧ k < if p = f.parts then size else p.toNat * f.partSize size

/-- A byte is in a part without what is left over. -/
def InBare (f : SplitWriteF) (size : ℕ) (p : ℤ) (k : ℕ) : Prop :=
  (p - 1).toNat * f.partSize size ≤ k ∧ k < p.toNat * f.partSize size

/-- A byte is among those that `split_write` adds to the part named last. -/
def InExtra (f : SplitWriteF) (size : ℕ) (k : ℕ) : Prop :=
  ∃ p ∈ f.persist.getLast?, p.toNat * f.partSize size ≤ k ∧
    k < p.toNat * f.partSize size + f.remainder size

/-- The writes of a size that are torn as the fault says: nothing is left over, or the last part is
the one named last, or the parts are empty but for the last one, which is named, or the last part is
not named and what is left over is sent with a part before others that are named. -/
def EvenOk (f : SplitWriteF) (size : ℕ) : Prop :=
  f.remainder size = 0 ∨ f.parts ∈ f.persist.getLast? ∨
    (f.partSize size = 0 ∧ f.parts ∈ f.persist) ∨
    (f.parts ∉ f.persist ∧ ∀ k, f.InExtra size k → ∃ p ∈ f.persist, f.InBare size p k)

end SplitWriteF

/-- The bytes sent, each with its offset. -/
def sentBytes (l : List Sent) : Set (ℤ × UInt8) :=
  {x | ∃ p ∈ l, ∃ t : ℕ, p.1[t]? = some x.2 ∧ x.1 = p.2 + t}

/-- The bytes of a write that satisfy a condition, each at its offset. -/
def bytesOf (w : Write) (A : ℕ → Prop) : Set (ℤ × UInt8) :=
  {x | ∃ k : ℕ, A k ∧ w.buf[k]? = some x.2 ∧ x.1 = w.offset + k}

/-- Exactly the bytes of the parts named are written, and a crash fault is armed. -/
def TearsEven (f : SplitWriteF) (w : Write) (d : Disk) (fd : Fd) (s s' : Lfs) : Prop :=
  ∃ l, Tears w d fd l true s s' ∧
    sentBytes l = bytesOf w fun k => ∃ p ∈ f.persist, f.InPart w.buf.length p k

/-- Bytes at their own offsets are told apart by their positions. -/
lemma bytesOf_eq_iff {A B : ℕ → Prop} :
    bytesOf w A = bytesOf w B ↔ ∀ k < w.buf.length, (A k ↔ B k) := by
  have hmem : ∀ (C : ℕ → Prop) (k : ℕ) (hk : k < w.buf.length),
      ((w.offset : ℤ) + k, w.buf[k]) ∈ bytesOf w C ↔ C k := by
    intro C k hk
    constructor
    · rintro ⟨j, hj, -, hx⟩
      have hjk : j = k := by
        dsimp only at hx
        omega
      rwa [hjk] at hj
    · exact fun hC => ⟨k, hC, List.getElem?_eq_getElem hk, rfl⟩
  constructor
  · intro h k hk
    rw [← hmem A k hk, ← hmem B k hk, h]
  · intro h
    ext x
    constructor
    · rintro ⟨k, hk, hbuf, hx⟩
      exact ⟨k, (h k (List.getElem?_eq_some_iff.mp hbuf).1).mp hk, hbuf, hx⟩
    · rintro ⟨k, hk, hbuf, hx⟩
      exact ⟨k, (h k (List.getElem?_eq_some_iff.mp hbuf).1).mpr hk, hbuf, hx⟩

namespace SplitWriteF

variable {size : ℕ}

lemma toNat_of_mem (hf : f.Even) {p : ℤ} (hp : p ∈ f.persist) :
    (p - 1).toNat + 1 = p.toNat ∧ p.toNat ≤ f.parts.toNat := by
  obtain ⟨h1, h2⟩ := hf.within p hp
  omega

lemma size_eq (f : SplitWriteF) (size : ℕ) :
    f.parts.toNat * f.partSize size + f.remainder size = size := Nat.div_add_mod _ _

lemma inExtra_iff {last : ℤ} (hlast : f.persist.getLast? = some last) (k : ℕ) :
    f.InExtra size k ↔ last.toNat * f.partSize size ≤ k ∧
      k < last.toNat * f.partSize size + f.remainder size := by
  rw [InExtra, hlast]
  simp

/-- A part before the last one ends before what is left over. -/
lemma end_le_of_ne (hf : f.Even) (size : ℕ) {p : ℤ} (hp : p ∈ f.persist) (hne : p ≠ f.parts) :
    p.toNat * f.partSize size + f.partSize size ≤ f.parts.toNat * f.partSize size := by
  have hlt : p.toNat + 1 ≤ f.parts.toNat := by
    have := hf.within p hp
    omega
  calc p.toNat * f.partSize size + f.partSize size = (p.toNat + 1) * f.partSize size := by ring
    _ ≤ f.parts.toNat * f.partSize size := Nat.mul_le_mul_right _ hlt

/-- Without what is left over a part has no bytes of another. -/
lemma InBare.inPart {p : ℤ} {k : ℕ} (h : f.InBare size p k) : f.InPart size p k := by
  refine ⟨h.1, ?_⟩
  have hdiv := size_eq f size
  have h2 := h.2
  split_ifs with hpp
  · rw [hpp] at h2
    omega
  · exact h2

lemma InPart.inBare {p : ℤ} {k : ℕ} (h : f.InPart size p k) (hne : p ≠ f.parts) :
    f.InBare size p k := by
  obtain ⟨h1, h2⟩ := h
  rw [if_neg hne] at h2
  exact ⟨h1, h2⟩

/-- Where the last part is named last, or nothing is left over, or the whole write is left over and
the last part is named, or the extra bytes lie in the parts named, what is sent is what the parts
named are. -/
lemma EvenOk.sends (hf : f.Even) (hok : f.EvenOk size) {k : ℕ} (hk : k < size) :
    (∃ p ∈ f.persist, f.InBare size p k) ∨ f.InExtra size k ↔
      ∃ p ∈ f.persist, f.InPart size p k := by
  have hdiv := size_eq f size
  obtain ⟨last, hlast⟩ : ∃ last, f.persist.getLast? = some last :=
    ⟨_, List.getLast?_eq_some_getLast hf.named⟩
  have hmemlast : last ∈ f.persist := List.mem_of_getLast? hlast
  have hextra : ∀ k, f.InExtra size k ↔ _ := inExtra_iff hlast
  set q := f.partSize size with hq
  set r := f.remainder size with hr
  constructor
  · rintro (⟨p, hp, hin⟩ | hex)
    · exact ⟨p, hp, hin.inPart⟩
    · -- an extra byte is in the last part, or in one of the parts named
      obtain ⟨h1, h2⟩ := (hextra k).mp hex
      rcases hok with h0 | hP | ⟨hq0, hP⟩ | ⟨-, hall⟩
      · rw [← hr] at h0
        omega
      · rw [hlast, Option.mem_some_iff] at hP
        refine ⟨last, hmemlast, ?_, ?_⟩
        · have := Nat.mul_le_mul_right q (show (last - 1).toNat ≤ last.toNat by omega)
          rw [← hq]
          omega
        · rw [if_pos hP]
          exact hk
      · refine ⟨_, hP, ?_, by rw [if_pos rfl]; exact hk⟩
        rw [hq0]
        omega
      · obtain ⟨p, hp, hin⟩ := hall k hex
        exact ⟨p, hp, hin.inPart⟩
  · rintro ⟨p, hp, hin⟩
    by_cases hpp : p = f.parts
    · -- a byte of the last part that is not one of its even bytes is one of the extra ones
      subst hpp
      obtain ⟨h1, -⟩ := hin
      rw [← hq] at h1
      by_cases hbareP : k < f.parts.toNat * q
      · exact .inl ⟨_, hp, h1, hbareP⟩
      · refine .inr ((hextra k).mpr ?_)
        rcases hok with h0 | hP | ⟨hq0, -⟩ | ⟨hnot, -⟩
        · rw [← hr] at h0
          omega
        · rw [hlast, Option.mem_some_iff] at hP
          rw [hP]
          omega
        · rw [← hq] at hq0
          rw [hq0] at hdiv ⊢
          omega
        · exact absurd hp hnot
    · exact .inl ⟨p, hp, hin.inBare hpp⟩

/-- Where what is sent is what the parts named are, and another part is named last, the last part is
not named: its last byte is not sent. -/
lemma parts_not_mem (hf : f.Even) (hsize : 1 ≤ size) {last : ℤ}
    (hlast : f.persist.getLast? = some last) (hl : last ≠ f.parts)
    (hr0 : f.remainder size ≠ 0) (hq0 : f.partSize size ≠ 0)
    (h : ∀ k < size, (∃ p ∈ f.persist, f.InPart size p k) →
      (∃ p ∈ f.persist, f.InBare size p k) ∨ f.InExtra size k) :
    f.parts ∉ f.persist := by
  have hdiv := size_eq f size
  have hlastq := end_le_of_ne hf size (List.mem_of_getLast? hlast) hl
  intro hP
  have hin : f.InPart size f.parts (size - 1) := by
    refine ⟨?_, by rw [if_pos rfl]; omega⟩
    have h2 : (f.parts - 1).toNat * f.partSize size + f.partSize size
        = f.parts.toNat * f.partSize size := by
      rw [← (toNat_of_mem hf hP).1]
      ring
    omega
  rcases h (size - 1) (by omega) ⟨_, hP, hin⟩ with ⟨p, hp, -, h2⟩ | hex
  · have hle : p.toNat * f.partSize size ≤ f.parts.toNat * f.partSize size :=
      Nat.mul_le_mul_right _ (toNat_of_mem hf hp).2
    omega
  · have h2 := ((inExtra_iff hlast _).mp hex).2
    omega

/-- The bytes that `split_write` sends are those of the parts named exactly when the write is one of
those in `EvenOk`. -/
lemma sends_iff (hf : f.Even) (hsize : 1 ≤ size) :
    (∀ k < size, ((∃ p ∈ f.persist, f.InBare size p k) ∨ f.InExtra size k ↔
      ∃ p ∈ f.persist, f.InPart size p k)) ↔ f.EvenOk size := by
  refine ⟨fun h => ?_, fun hok k hk => hok.sends hf hk⟩
  have hdiv := size_eq f size
  obtain ⟨last, hlast⟩ : ∃ last, f.persist.getLast? = some last :=
    ⟨_, List.getLast?_eq_some_getLast hf.named⟩
  have hextra : ∀ k, f.InExtra size k ↔ _ := inExtra_iff hlast
  by_cases hr0 : f.remainder size = 0
  · exact .inl hr0
  by_cases hl : last = f.parts
  · rw [EvenOk, hlast, hl]
    exact .inr (.inl rfl)
  by_cases hq0 : f.partSize size = 0
  · -- the first byte is sent, and belongs to the last part
    have hzero : f.InExtra size 0 := (hextra 0).mpr ⟨by rw [hq0]; omega, by rw [hq0]; omega⟩
    obtain ⟨p, hp, h1, h2⟩ := (h 0 hsize).mp (.inr hzero)
    rw [hq0] at h2
    split_ifs at h2 with hpp
    · rw [hpp] at hp
      exact .inr (.inr (.inl ⟨hq0, hp⟩))
    · omega
  · -- the extra bytes follow a part before the last one, and are bytes of the parts named
    have hnot := parts_not_mem hf hsize hlast hl hr0 hq0 fun k hk => (h k hk).mpr
    have hlastq := end_le_of_ne hf size (List.mem_of_getLast? hlast) hl
    refine .inr (.inr (.inr ⟨hnot, fun k hk => ?_⟩))
    have hk' := (hextra k).mp hk
    obtain ⟨p, hp, hin⟩ := (h k (by omega)).mp (.inr hk)
    exact ⟨p, hp, hin.inBare fun hpp => hnot (hpp ▸ hp)⟩

/-- The parts as `split_write` keeps them, below `2^31`. -/
def evenParts (f : SplitWriteF) (size offset : ℕ) : List Part :=
  f.persist.zipIdx.map fun x =>
    (((x.1 - 1).toNat * f.partSize size : ℕ),
      (if x.2 = f.persist.length - 1 then f.partSize size + f.remainder size else f.partSize size :
        ℕ),
      (offset + (x.1 - 1).toNat * f.partSize size : ℕ))

lemma start_add_le (hf : f.Even) {p : ℤ} (hp : p ∈ f.persist) (size : ℕ) :
    (p - 1).toNat * f.partSize size + f.partSize size + f.remainder size ≤ size := by
  obtain ⟨h1, h2⟩ := toNat_of_mem hf hp
  have hdiv := size_eq f size
  have hle : ((p - 1).toNat + 1) * f.partSize size ≤ f.parts.toNat * f.partSize size :=
    Nat.mul_le_mul_right _ (by omega)
  rw [Nat.add_mul, Nat.one_mul] at hle
  omega

/-- The first byte of a part, as the `int` that is kept. -/
lemma toInt_partStart (hf : f.Even) {p : ℤ} (hp : p ∈ f.persist) (h : size < 2 ^ 31) :
    toInt ((p - 1) * (size / f.parts.toNat : ℕ)) = ((p - 1).toNat * f.partSize size : ℕ) := by
  have hle := start_add_le hf hp size
  have hpos : ((p - 1).toNat : ℤ) = p - 1 := by
    have := hf.within p hp
    omega
  rw [← hpos, Int.toNat_natCast]
  exact_mod_cast toInt_of_lt (n := (p - 1).toNat * f.partSize size) (by omega)

/-- The length of a part, as the `int` that is kept. -/
lemma toInt_partLength (hf : f.Even) {p : ℤ} (hp : p ∈ f.persist) (h : size < 2 ^ 31) (i : ℕ) :
    toInt ((if i = f.persist.length - 1 then size / f.parts.toNat + size % f.parts.toNat
        else size / f.parts.toNat : ℕ) : ℤ)
      = (if i = f.persist.length - 1 then f.partSize size + f.remainder size
        else f.partSize size : ℕ) := by
  have hle := start_add_le hf hp size
  refine toInt_of_lt ?_
  change (if i = f.persist.length - 1 then f.partSize size + f.remainder size
      else f.partSize size) < _
  split_ifs
  · omega
  · omega

lemma splitParts_even (hf : f.Even) {size offset : ℕ} (h : offset + size < 2 ^ 31) :
    splitParts f size offset = some (f.evenParts size offset) := by
  have hparts : ¬ f.parts = -1 := by
    have := hf.parts
    omega
  rw [splitParts, if_neg hparts, evenParts]
  refine congrArg some (List.map_congr_left ?_)
  rintro ⟨p, i⟩ hx
  have hp : p ∈ f.persist := List.fst_mem_of_mem_zipIdx hx
  have hle := start_add_le hf hp size
  have hpos : ((p - 1).toNat : ℤ) = p - 1 := by
    have := hf.within p hp
    omega
  have hoff : toInt ((offset : ℤ) + (p - 1) * (size / f.parts.toNat : ℕ))
      = (offset + (p - 1).toNat * f.partSize size : ℕ) := by
    rw [← hpos, Int.toNat_natCast]
    exact_mod_cast toInt_of_lt (n := offset + (p - 1).toNat * f.partSize size) (by omega)
  dsimp only
  rw [toInt_partStart hf hp (by omega), toInt_partLength hf hp (by omega), hoff]

/-- The bytes that the parts kept cover. -/
lemma covered_iff (hf : f.Even) {size k : ℕ} :
    (∃ x ∈ f.persist.zipIdx, (x.1 - 1).toNat * f.partSize size ≤ k ∧
        k < (x.1 - 1).toNat * f.partSize size + if x.2 = f.persist.length - 1 then
          f.partSize size + f.remainder size else f.partSize size) ↔
      (∃ p ∈ f.persist, f.InBare size p k) ∨ f.InExtra size k := by
  have hstart : ∀ p ∈ f.persist,
      p.toNat * f.partSize size = (p - 1).toNat * f.partSize size + f.partSize size := by
    intro p hp
    rw [← (toNat_of_mem hf hp).1]
    ring
  constructor
  · rintro ⟨⟨p, i⟩, hx, h1, h2⟩
    have hp : p ∈ f.persist := List.fst_mem_of_mem_zipIdx hx
    have hat : f.persist[i]? = some p := List.mem_zipIdx_iff_getElem?.mp hx
    have hs := hstart p hp
    dsimp only at h1 h2
    -- a byte of the part itself, or one that is added to the last one
    by_cases hk : k < p.toNat * f.partSize size
    · exact .inl ⟨p, hp, h1, hk⟩
    · split_ifs at h2 with hi
      · refine .inr ⟨p, ?_, by omega, by omega⟩
        rw [List.getLast?_eq_getElem?, ← hi, hat]
        rfl
      · omega
  · rintro (⟨p, hp, h1, h2⟩ | ⟨p, hlast, h1, h2⟩)
    · -- a part is at some position, and the last one at the last
      obtain ⟨i, hi⟩ := List.mem_iff_getElem?.mp hp
      refine ⟨(p, i), List.mem_zipIdx_iff_getElem?.mpr hi, h1, ?_⟩
      have hs := hstart p hp
      dsimp only
      split_ifs
      · omega
      · omega
    · have hp : p ∈ f.persist := List.mem_of_getLast? hlast
      have hs := hstart p hp
      rw [List.getLast?_eq_getElem?] at hlast
      refine ⟨(p, f.persist.length - 1), List.mem_zipIdx_iff_getElem?.mpr hlast, ?_, ?_⟩
      · dsimp only
        omega
      · dsimp only
        rw [if_pos rfl]
        omega

end SplitWriteF

/-- The bytes sent for parts of equal size. -/
lemma sentBytes_evenParts (hf : f.Even) :
    sentBytes ((f.evenParts w.buf.length w.offset).map (Part.sent w.buf))
      = bytesOf w fun k => (∃ p ∈ f.persist, f.InBare w.buf.length p k) ∨
      f.InExtra w.buf.length k := by
  ext ⟨off, b⟩
  constructor
  · rintro ⟨piece, hpiece, t, hb, hoff⟩
    rw [SplitWriteF.evenParts, List.map_map] at hpiece
    obtain ⟨x, hx, rfl⟩ := List.mem_map.mp hpiece
    dsimp only [Function.comp, Part.sent] at hb hoff
    rw [Int.toNat_natCast, Int.toNat_natCast] at hb
    have ht := (List.getElem?_eq_some_iff.mp hb).1
    rw [Bytes.length_slice, lt_inf_iff] at ht
    rw [Bytes.getElem?_slice _ ht.1] at hb
    refine ⟨_, (SplitWriteF.covered_iff hf).mp ⟨x, hx, Nat.le_add_right _ t, ?_⟩, hb, ?_⟩
    · exact Nat.add_lt_add_left ht.1 _
    · rw [hoff]
      push_cast
      ring
  · rintro ⟨k, hk, hb, hoff⟩
    obtain ⟨x, hx, h1, h2⟩ := (SplitWriteF.covered_iff hf).mpr hk
    refine ⟨_, List.mem_map.mpr ⟨_, List.mem_map.mpr ⟨x, hx, rfl⟩, rfl⟩,
      k - (x.1 - 1).toNat * f.partSize w.buf.length, ?_, ?_⟩
    · dsimp only [Part.sent]
      rw [Int.toNat_natCast, Int.toNat_natCast,
        Bytes.getElem?_slice _ (Nat.sub_lt_left_of_lt_add h1 h2), Nat.add_sub_cancel' h1]
      exact hb
    · dsimp only [Part.sent] at hoff ⊢
      omega

/-- **Equal parts**: a write below `2^31` that triggers its fault is torn as the fault says exactly
when what the parts leave over is sent with the last of them. -/
theorem tears_even_iff (hf : f.Even) (h : Due f w io d fd s) (hsize : 1 ≤ w.buf.length)
    (hoff : w.offset + w.buf.length < 2 ^ 31) :
    wp (splitWrite w io) (fun _ s' => TearsEven f w d fd s s') (fun _ _ => False) s ↔
      f.EvenOk w.buf.length := by
  rw [← SplitWriteF.sends_iff hf hsize, ← bytesOf_eq_iff (w := w), ← sentBytes_evenParts hf]
  refine wp_iff (wp_mono (wp_splitWrite_due h) ?_ fun _ _ he => he)
  rintro r s' ⟨-, hsome⟩
  have hf' : SplitWriteF.Even { f with counter := f.counter + 1 } := ⟨hf.parts, hf.named, hf.within⟩
  obtain ⟨hr, ht⟩ := hsome _ (SplitWriteF.splitParts_even hf' hoff)
  have hseeks : ∀ p ∈ f.evenParts w.buf.length w.offset, p.Seeks := by
    intro p hp
    obtain ⟨x, -, rfl⟩ := List.mem_map.mp hp
    exact Int.natCast_nonneg _
  have htrue : r = true := hr.mpr hseeks
  subst htrue
  have hsent : Tears w d fd ((attempted (f.evenParts w.buf.length w.offset)).map (Part.sent w.buf))
      true
      s s' := ht
  rw [attempted_of_seeks hseeks] at hsent
  constructor
  · rintro ⟨l, hT, hl⟩
    have hparts := hT.parts
    rw [hsent.parts, List.append_cancel_right_eq] at hparts
    rw [← hl, ← List.reverse_injective hparts]
  · exact fun heq => ⟨_, hsent, heq⟩

/-- The first of two parts. -/
def firstHalf : SplitWriteF := .ofParts 1 [1] 2

/-- Of two bytes in two parts the first is sent. -/
theorem tears_even_iff_firstHalf :
    wp (splitWrite (writeAt [97, 98] 0) {})
      (fun _ s' => TearsEven firstHalf (writeAt [97, 98] 0) oneFile ⟨1, false, true⟩
        (withTornOp firstHalf) s') (fun _ _ => False) (withTornOp firstHalf) :=
  (tears_even_iff ⟨by decide, by decide, by decide⟩ (due_withTornOp rfl [97, 98] 0) (by decide)
    (by decide)).mpr (.inl (by decide))

/-- **The remainder is sent with the wrong part**: of three bytes in two parts, the second byte is
sent with the first part. -/
theorem remainder_misplaced :
    SplitWriteF.validate 1 [1] (some 2) none = [] ∧
      ¬ wp (splitWrite (writeAt [97, 98, 99] 0) {})
        (fun _ s' => TearsEven firstHalf (writeAt [97, 98, 99] 0) oneFile ⟨1, false, true⟩
          (withTornOp firstHalf) s') (fun _ _ => False) (withTornOp firstHalf) := by
  refine ⟨by decide, fun h => ?_⟩
  obtain ⟨r, hr⟩ := exists_ok_of_halt?
    (r := splitWrite (writeAt [97, 98, 99] 0) {} (withTornOp firstHalf)) (by decide +kernel)
  obtain ⟨l, hT, hl⟩ := wp_of_ok h hr
  have hparts := hT.parts
  have hsent : (final (splitWrite (writeAt [97, 98, 99] 0) {} (withTornOp firstHalf))).parts
      = [([97, 98], 0)] := by decide +kernel
  rw [hsent] at hparts
  have hl1 : l = [([97, 98], 0)] := by
    have hrev : [([97, 98], (0 : ℤ))] = l.reverse ++ [] := hparts
    rw [List.append_nil] at hrev
    rw [← List.reverse_reverse l, ← hrev]
    rfl
  have hmem : ((1 : ℤ), (98 : UInt8)) ∈ sentBytes l := ⟨([97, 98], 0), by simp [hl1], 1, rfl, rfl⟩
  rw [hl] at hmem
  obtain ⟨k, ⟨p, hp, -, h2⟩, -, hx⟩ := hmem
  have hp1 : p = 1 := List.mem_singleton.mp hp
  have hk : (1 : ℤ) = 0 + k := hx
  have hk1 : k = 1 := by omega
  subst hp1 hk1
  revert h2
  decide

end LazyFS
