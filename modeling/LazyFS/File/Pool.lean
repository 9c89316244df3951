import LazyFS.File.Holds
import Mathlib.Data.Finset.Card

/-!
A write and the free pages it takes.

* `FileView.turn`, `FileView.turns`: the blocks of a write one after the other, with the number of
  free pages; a block that is not resident takes one.
* `FileView.missing`: how many blocks of a set are not resident.
* `turns_spec`: which blocks of a write find a page; as long as the missing blocks are not more
  than the free pages all of them do.
* `FileView.writeAt`: a write with the hole before it; `Holds.writeAt`, `Tight.writeAt` and
  `writeAt_enough`.
-/

namespace LazyFS

namespace FileView

variable {B known offset : ℕ} {src : List UInt8}

/-- The number of blocks of a set that are not resident. -/
def missing (f : FileView) (S : Finset ℤ) : ℕ := (S.filter fun b => (f.blocks b).isNone).card

/-- A block finds a page when it is resident or a page is free. -/
def finds (f : FileView) (free n : ℕ) : Bool := (f.blocks (toInt n)).isSome || decide (free ≠ 0)

/-- One block of a write, with the number of free pages. -/
def turn (B known offset : ℕ) (src : List UInt8) (s : FileView × ℕ) (n : ℕ) : FileView × ℕ :=
  (s.1.writeBlock B known (s.1.finds s.2 n) n (segFrom B offset n - n * B) (seg B offset src n),
    if (s.1.blocks (toInt n)).isSome then s.2 else s.2 - 1)

/-- The blocks of a write, with the number of free pages. -/
def turns (B known offset : ℕ) (src : List UInt8) (l : List ℕ) (s : FileView × ℕ) : FileView × ℕ :=
  l.foldl (turn B known offset src) s

/-- A block that finds a page is resident after its turn. -/
lemma isSome_writeBlock {f : FileView} {n off : ℕ} {stored : Bool} {sg : List UInt8}
    (hst : (f.blocks (toInt n)).isSome ∨ stored = true) :
    ((f.writeBlock B known stored n off sg).blocks (toInt n)).isSome := by
  cases hv : f.blocks (toInt n) with
  | some v =>
      rw [writeBlock_some hv, blocks_setBlock_self]
      rfl
  | none =>
      rw [hv] at hst
      rcases hst with hst | rfl
      · cases hst
      · rw [writeBlock_stored hv, blocks_setBlock_self]
        rfl

lemma isSome_turn {s : FileView × ℕ} {b : ℤ} (n : ℕ) (hb : (s.1.blocks b).isSome) :
    ((turn B known offset src s n).1.blocks b).isSome := by
  rw [← Option.ne_none_iff_isSome] at hb ⊢
  exact fun hn => hb (blocks_of_writeBlock_none hn)

/-- Resident blocks stay resident. -/
lemma isSome_turns {b : ℤ} (l : List ℕ) (s : FileView × ℕ) (hb : (s.1.blocks b).isSome) :
    ((turns B known offset src l s).1.blocks b).isSome := by
  induction l generalizing s with
  | nil => exact hb
  | cons n l ih => exact ih _ (isSome_turn n hb)

/-- Block `b` is dirty if it is resident. -/
def DirtyAt (f : FileView) (b : ℤ) : Prop := ∀ v, f.blocks b = some v → v.dirty = true

/-- A write makes its blocks dirty, and no other block clean. -/
lemma DirtyAt.turn {s : FileView × ℕ} {b : ℤ} {n : ℕ} (h : b = toInt n ∨ s.1.DirtyAt b) :
    (FileView.turn B known offset src s n).1.DirtyAt b := by
  intro v hv
  rw [FileView.turn] at hv
  by_cases hb : b = toInt n
  · subst hb
    cases hw : s.1.blocks (toInt n) with
    | some w =>
        rw [writeBlock_some hw, blocks_setBlock_self, Option.some.injEq] at hv
        rw [← hv]
        rfl
    | none =>
        by_cases hst : s.1.finds s.2 n = true
        · rw [hst, writeBlock_stored hw, blocks_setBlock_self, Option.some.injEq] at hv
          rw [← hv]
          rfl
        · rw [Bool.not_eq_true] at hst
          rw [hst, writeBlock_through hw, hw] at hv
          cases hv
  · rw [blocks_writeBlock_ne hb] at hv
    exact h.resolve_left hb v hv

/-- The blocks of a write are dirty after it. -/
lemma dirtyAt_turns {b : ℤ} (l : List ℕ) (s : FileView × ℕ)
    (h : (∃ n ∈ l, b = toInt n) ∨ s.1.DirtyAt b) : (turns B known offset src l s).1.DirtyAt b := by
  induction l generalizing s with
  | nil => exact h.resolve_left (by simp)
  | cons m l ih =>
      refine ih _ ?_
      rcases h with ⟨n, hn, rfl⟩ | h
      · rcases List.mem_cons.mp hn with rfl | hn
        · exact .inr (DirtyAt.turn (.inl rfl))
        · exact .inl ⟨n, hn, rfl⟩
      · exact .inr (DirtyAt.turn (.inr h))

lemma free_turn_le (s : FileView × ℕ) (n : ℕ) : (turn B known offset src s n).2 ≤ s.2 := by
  rw [turn]
  dsimp only
  split_ifs <;> omega

variable (B known offset src) in
/-- One block is resident that was not, and one page less is free. -/
lemma missing_turn {S : Finset ℤ} {n : ℕ} {s : FileView × ℕ} (hn : toInt n ∈ S)
    (hS : s.1.missing S ≤ s.2) :
    s.1.finds s.2 n = true ∧ (turn B known offset src s n).2 + s.1.missing S
      = s.2 + (turn B known offset src s n).1.missing S := by
  by_cases hv : (s.1.blocks (toInt n)).isSome
  · -- the block has its page, and nothing changes
    have hfinds : s.1.finds s.2 n = true := by rw [finds, hv, Bool.true_or]
    have hsame : ∀ b, ((turn B known offset src s n).1.blocks b).isNone
        = (s.1.blocks b).isNone := by
      intro b
      by_cases hb : b = toInt n
      · rw [hb, ← Option.not_isSome, ← Option.not_isSome, isSome_turn n hv, hv]
      · rw [turn, blocks_writeBlock_ne hb]
    have hfree : (turn B known offset src s n).2 = s.2 := by
      rw [turn, if_pos hv]
    refine ⟨hfinds, ?_⟩
    rw [hfree, missing, missing]
    simp only [hsame]
  · -- it takes a free page, and is no longer missing
    have hnone : (s.1.blocks (toInt n)).isNone = true := by simpa using hv
    have hmem : toInt n ∈ S.filter fun b => (s.1.blocks b).isNone :=
      Finset.mem_filter.mpr ⟨hn, hnone⟩
    have hpos : 0 < s.1.missing S := Finset.card_pos.mpr ⟨_, hmem⟩
    have hfinds : s.1.finds s.2 n = true := by
      rw [finds, Bool.or_eq_true, decide_eq_true_eq]
      omega
    have hsome : ((turn B known offset src s n).1.blocks (toInt n)).isSome :=
      isSome_writeBlock (.inr hfinds)
    have herase : (S.filter fun b => ((turn B known offset src s n).1.blocks b).isNone)
        = (S.filter fun b => (s.1.blocks b).isNone).erase (toInt n) := by
      ext b
      rw [Finset.mem_erase, Finset.mem_filter, Finset.mem_filter]
      by_cases hb : b = toInt n
      · rw [hb, ← Option.not_isSome, hsome]
        simp
      · rw [turn, blocks_writeBlock_ne hb]
        simp [hb]
    have hfree : (turn B known offset src s n).2 = s.2 - 1 := by
      rw [turn, if_neg hv]
    have hcard : (turn B known offset src s n).1.missing S = s.1.missing S - 1 := by
      rw [missing, herase, Finset.card_erase_of_mem hmem]
      rfl
    exact ⟨hfinds, by omega⟩

/-- Which of the blocks of a write find a page, as `stored` says. -/
structure Written (B known offset : ℕ) (src : List UInt8) (l : List ℕ) (s : FileView × ℕ)
    (stored : ℕ → Bool) : Prop where
  file : (turns B known offset src l s).1 = l.foldl (fun f n =>
    f.writeBlock B known (stored n) n (segFrom B offset n - n * B) (seg B offset src n)) s.1
  stored_imp : ∀ n ∈ l, stored n = true → (s.1.blocks (toInt n)).isSome ∨ s.2 ≠ 0
  covered : ∀ n ∈ l, ((turns B known offset src l s).1.blocks (toInt n)).isSome ∨
    (turns B known offset src l s).2 = 0
  enough : ∀ S : Finset ℤ, (∀ n ∈ l, toInt n ∈ S) → s.1.missing S ≤ s.2 →
    (∀ n ∈ l, stored n = true) ∧ (turns B known offset src l s).2 + s.1.missing S
      = s.2 + (turns B known offset src l s).1.missing S
  free_le : (turns B known offset src l s).2 ≤ s.2

/-- A turn and the turns after it. -/
lemma Written.cons {s : FileView × ℕ} {n : ℕ} {l : List ℕ} (hnl : n ∉ l) {stored : ℕ → Bool}
    (hW : Written B known offset src l (turn B known offset src s n) stored) :
    Written B known offset src (n :: l) s (Function.update stored n (s.1.finds s.2 n)) := by
  have hle : (turn B known offset src s n).2 ≤ s.2 := free_turn_le s n
  have hle' := hW.free_le
  have hcons : turns B known offset src (n :: l) s
      = turns B known offset src l (turn B known offset src s n) := rfl
  have hother : ∀ m ∈ l, Function.update stored n (s.1.finds s.2 n) m = stored m := fun m hm =>
    Function.update_of_ne (fun heq : m = n => hnl (heq ▸ hm)) _ _
  refine ⟨?_, fun m hm hst => ?_, fun m hm => ?_, fun S hl hS => ?_, by rw [hcons]; omega⟩
  · rw [hcons, hW.file, List.foldl_cons, Function.update_self]
    refine List.foldl_ext _ _ _ fun f m hm => ?_
    rw [hother m hm]
  · rcases List.mem_cons.mp hm with rfl | hm
    · rw [Function.update_self, finds, Bool.or_eq_true, decide_eq_true_eq] at hst
      exact hst
    · rw [hother m hm] at hst
      rcases hW.stored_imp m hm hst with h1 | h1
      · by_cases hmn : toInt m = toInt n
        · by_contra hcon
          rw [not_or, not_not] at hcon
          rw [hmn] at h1 hcon
          -- nothing was stored, so that the block is not resident now either
          have hnone : s.1.blocks (toInt n) = none := by simpa using hcon.1
          have hfinds : s.1.finds s.2 n = false := by
            rw [finds, hnone, hcon.2]
            rfl
          rw [turn, hfinds, writeBlock_through hnone] at h1
          exact hcon.1 h1
        · rw [turn, blocks_writeBlock_ne hmn] at h1
          exact .inl h1
      · exact .inr (by omega)
  · rw [hcons]
    rcases List.mem_cons.mp hm with rfl | hm
    · by_cases hf : s.1.finds s.2 m = true
      · exact .inl (isSome_turns l _ (isSome_writeBlock (.inr hf)))
      · rw [finds, Bool.or_eq_true, not_or, decide_eq_true_eq, not_not] at hf
        exact .inr (by omega)
    · exact hW.covered m hm
  · obtain ⟨hfinds, hbal⟩ := missing_turn B known offset src (hl n List.mem_cons_self) hS
    obtain ⟨hall, hbal'⟩ := hW.enough S (fun m hm => hl m (List.mem_cons_of_mem _ hm)) (by omega)
    refine ⟨fun m hm => ?_, by rw [hcons]; omega⟩
    rcases List.mem_cons.mp hm with rfl | hm
    · rw [Function.update_self]
      exact hfinds
    · rw [hother m hm]
      exact hall m hm

/-- Which of the blocks of a write find a page. -/
theorem turns_spec (l : List ℕ) (hl : l.Nodup) (s : FileView × ℕ) :
    ∃ stored, Written B known offset src l s stored := by
  induction l generalizing s with
  | nil =>
      refine ⟨fun _ => true, rfl, by simp, by simp, fun S _ _ => ⟨by simp, rfl⟩, le_rfl⟩
  | cons n l ih =>
      obtain ⟨hn, hl⟩ := List.nodup_cons.mp hl
      obtain ⟨stored, hW⟩ := ih hl (turn B known offset src s n)
      exact ⟨_, Written.cons hn hW⟩

/-! ### A whole write -/

/-- A write without a hole before it, with the number of free pages. -/
def writeAll (B known offset : ℕ) (src : List UInt8) (s : FileView × ℕ) : FileView × ℕ :=
  turns B known offset src (blocksOf B offset (offset + src.length)) s

/-- The hole between the end of a file of a given size and an offset, filled with zeros. -/
def fillTo (B size offset : ℕ) (s : FileView × ℕ) : FileView × ℕ :=
  if size < offset then writeAll B size size (List.replicate (offset - size) 0) s else s

/-- A write to a file of a given size: first the hole, then the blocks of the write. -/
def writeAt (B size offset : ℕ) (src : List UInt8) (s : FileView × ℕ) : FileView × ℕ :=
  writeAll B size offset src (fillTo B size offset s)

section

variable {size free : ℕ} {f : FileView} {c : List UInt8} {s : FileView × ℕ}

/-- A write without a hole before it. -/
lemma writeAll_spec (B known offset : ℕ) (src : List UInt8) (s : FileView × ℕ) :
    ∃ stored, (writeAll B known offset src s).1 = s.1.writeBlocks B known stored offset src ∧
      Written B known offset src (blocksOf B offset (offset + src.length)) s stored := by
  obtain ⟨stored, hW⟩ : ∃ stored,
      Written B known offset src (blocksOf B offset (offset + src.length)) s stored :=
    turns_spec _ List.nodup_range' s
  exact ⟨stored, hW.file, hW⟩

/-- With a page free, a block that is stored without its old bytes has none. -/
def FreshFree (B known : ℕ) (c : List UInt8) (s : FileView × ℕ) (offset stop : ℕ) : Prop :=
  ∀ n ∈ blocksOf B offset stop, s.1.blocks (toInt n) = none → s.2 ≠ 0 → known ≤ n * B →
    c.length ≤ n * B

lemma Written.freshOk {stored : ℕ → Bool} {l : List ℕ}
    (hW : Written B known offset src l s stored) {stop : ℕ} (hl : l = blocksOf B offset stop)
    (hfr : FreshFree B known c s offset stop) : FreshOk B known c s.1 stored offset stop := by
  intro n hn hb hst hk
  rcases hW.stored_imp n (hl ▸ hn) hst with h1 | h1
  · rw [hb] at h1
    cases h1
  · exact hfr n hn hb h1 hk

lemma Holds.writeAll (h : Holds B c s.1) (hB : 0 < B) (hs : src ≠ []) (ho : offset ≤ c.length)
    (hbig : (Bytes.write c offset src).length ≤ 2 ^ 32 * B)
    (hfr : FreshFree B known c s offset (offset + src.length)) :
    Holds B (Bytes.write c offset src) (writeAll B known offset src s).1 := by
  obtain ⟨stored, hfile, hW⟩ := writeAll_spec B known offset src s
  rw [hfile]
  exact h.writeBlocks hB hs ho hbig (hW.freshOk rfl hfr)

lemma Tight.writeAll (ht : Tight B c s.1) (h : Holds B c s.1) (hB : 0 < B) (hs : src ≠ [])
    (ho : offset ≤ c.length) (hbig : (Bytes.write c offset src).length ≤ 2 ^ 32 * B)
    (hfr : FreshFree B known c s offset (offset + src.length)) :
    Tight B (Bytes.write c offset src) (FileView.writeAll B known offset src s).1 := by
  obtain ⟨stored, hfile, hW⟩ := writeAll_spec B known offset src s
  rw [hfile]
  exact ht.writeBlocks h hB hs ho hbig (hW.freshOk rfl hfr)

lemma Snug.writeAll (ht : Snug B c s.1) (h : Holds B c s.1) (hB : 0 < B) (hs : src ≠ [])
    (hin : offset + src.length ≤ c.length) (hdvd : B ∣ c.length) (hbig : c.length ≤ 2 ^ 32 * B)
    (hfr : FreshFree B known c s offset (offset + src.length)) :
    Snug B (Bytes.write c offset src) (FileView.writeAll B known offset src s).1 := by
  obtain ⟨stored, hfile, hW⟩ := writeAll_spec B known offset src s
  rw [hfile]
  exact ht.writeBlocks h hB hs hin hdvd hbig (hW.freshOk rfl hfr)

lemma Clean.writeAll (h : Clean B c s.1) (hB : 0 < B) (hs : src ≠ []) (ho : offset ≤ c.length)
    (hbig : (Bytes.write c offset src).length ≤ 2 ^ 32 * B) :
    Clean B (Bytes.write c offset src) (FileView.writeAll B known offset src s).1 := by
  obtain ⟨stored, hfile, -⟩ := writeAll_spec B known offset src s
  rw [hfile]
  exact h.writeBlocks hB hs ho hbig

lemma Bounded.writeAll (h : Bounded B s.1) (hB : 0 < B) (hs : src ≠ []) :
    Bounded B (FileView.writeAll B known offset src s).1 := by
  obtain ⟨stored, hfile, -⟩ := writeAll_spec B known offset src s
  rw [hfile]
  exact h.writeBlocks (c := List.replicate offset 0) hB hs (by simp)

lemma Ids.writeAll {Q : ℤ → Prop} (h : Ids Q s.1) (hB : 0 < B) (hs : src ≠ [])
    (hQ : ∀ n : ℕ, n * B < offset + src.length → Q (toInt n)) :
    Ids Q (FileView.writeAll B known offset src s).1 := by
  obtain ⟨stored, hfile, -⟩ := writeAll_spec B known offset src s
  rw [hfile]
  exact h.writeBlocks hB hs hQ

lemma length_disk_writeAll (hB : 0 < B) (hs : src ≠ []) {N : ℕ} (h : s.1.disk.length ≤ N)
    (hstop : offset + src.length ≤ N) :
    (FileView.writeAll B known offset src s).1.disk.length ≤ N := by
  obtain ⟨stored, hfile, -⟩ := writeAll_spec B known offset src s
  rw [hfile]
  exact length_disk_writeBlocks hB hs h hstop

/-- The zeros of a hole are not nothing. -/
lemma replicate_ne_nil (h : size < offset) : List.replicate (offset - size) (0 : UInt8) ≠ [] := by
  rw [Ne, List.replicate_eq_nil_iff]
  omega

/-- The contents after the hole is filled. -/
lemma write_hole (h : c.length < offset) :
    Bytes.write c c.length (List.replicate (offset - c.length) 0) = Bytes.resize c offset :=
  (Bytes.resize_eq_write c h).symm

/-- The hole is filled in the contents, and the blocks that were touched are resident or no page is
left. -/
lemma Holds.fillTo (h : Holds B c s.1) (hB : 0 < B) (hhole : c.length < offset)
    (hbig : offset ≤ 2 ^ 32 * B) :
    Holds B (Bytes.resize c offset) (FileView.fillTo B c.length offset s).1 := by
  rw [FileView.fillTo, if_pos hhole, ← write_hole hhole]
  refine h.writeAll hB (replicate_ne_nil hhole) le_rfl ?_ fun n _ _ _ hk => hk
  rw [write_hole hhole, Bytes.length_resize]
  exact hbig

lemma Tight.fillTo (ht : Tight B c s.1) (h : Holds B c s.1) (hB : 0 < B) (hhole : c.length < offset)
    (hbig : offset ≤ 2 ^ 32 * B) :
    Tight B (Bytes.resize c offset) (FileView.fillTo B c.length offset s).1 := by
  rw [FileView.fillTo, if_pos hhole, ← write_hole hhole]
  refine ht.writeAll h hB (replicate_ne_nil hhole) le_rfl ?_ fun n _ _ _ hk => hk
  rw [write_hole hhole, Bytes.length_resize]
  exact hbig

lemma Clean.fillTo (h : Clean B c s.1) (hB : 0 < B) (hhole : c.length < offset)
    (hbig : offset ≤ 2 ^ 32 * B) :
    Clean B (Bytes.resize c offset) (FileView.fillTo B c.length offset s).1 := by
  rw [FileView.fillTo, if_pos hhole, ← write_hole hhole]
  refine h.writeAll hB (replicate_ne_nil hhole) le_rfl ?_
  rw [write_hole hhole, Bytes.length_resize]
  exact hbig

lemma Ids.fillTo {Q : ℤ → Prop} (h : Ids Q s.1) (hB : 0 < B)
    (hQ : ∀ n : ℕ, n * B < offset → Q (toInt n)) : Ids Q (FileView.fillTo B size offset s).1 := by
  rw [FileView.fillTo]
  split_ifs with hhole
  · refine h.writeAll hB (replicate_ne_nil hhole) fun n hn => hQ n ?_
    rw [List.length_replicate] at hn
    omega
  · exact h

lemma Numbered.fillTo (h : Numbered s.1) (hB : 0 < B) (hoff : offset ≤ 2 ^ 31 * B) :
    Numbered (FileView.fillTo B size offset s).1 :=
  Ids.fillTo h hB fun _ hn => toInt_nonneg hoff hn

lemma length_disk_fillTo (hB : 0 < B) {N : ℕ} (h : s.1.disk.length ≤ N) (hoff : offset ≤ N) :
    (FileView.fillTo B size offset s).1.disk.length ≤ N := by
  rw [FileView.fillTo]
  split_ifs with hhole
  · exact length_disk_writeAll hB (replicate_ne_nil hhole) h (by rw [List.length_replicate]; omega)
  · exact h

/-- After the hole is filled, a block that is stored without its old bytes has none, though the end
of the file that the write goes on with is the one before the hole. -/
lemma freshFree_fillTo (hB : 0 < B) (hs : src ≠ []) (hhole : c.length < offset) :
    FreshFree B c.length (Bytes.resize c offset) (fillTo B c.length offset s) offset
      (offset + src.length) := by
  have hpos : 0 < src.length := List.length_pos_of_ne_nil hs
  intro n hn hb hfree hk
  rw [Bytes.length_resize]
  by_contra hcon
  obtain ⟨g1, g2⟩ := (mem_blocksOf hB (by omega)).mp hn
  rw [fillTo, if_pos hhole] at hb hfree
  obtain ⟨stored, -, hW⟩ := writeAll_spec B c.length c.length
    (List.replicate (offset - c.length) 0) s
  have hlen : c.length + (List.replicate (offset - c.length) (0 : UInt8)).length = offset := by
    rw [List.length_replicate]
    omega
  have hmem : n ∈ blocksOf B c.length
      (c.length + (List.replicate (offset - c.length) (0 : UInt8)).length) := by
    rw [hlen]
    exact (mem_blocksOf hB hhole).mpr ⟨by omega, by
      rw [Nat.add_mul, one_mul]
      omega⟩
  rcases hW.covered n hmem with h1 | h1
  · rw [FileView.writeAll] at hb
    rw [hb] at h1
    cases h1
  · exact hfree h1

/-- **A write to the view of a file is a write to its contents.** -/
theorem Holds.writeAt (h : Holds B c s.1) (hB : 0 < B) (hs : src ≠ [])
    (hbig : (Bytes.write c offset src).length ≤ 2 ^ 32 * B) :
    Holds B (Bytes.write c offset src) (FileView.writeAt B c.length offset src s).1 := by
  rw [FileView.writeAt]
  rcases Nat.lt_or_ge c.length offset with hhole | hle
  · have hlen := Bytes.length_write c offset hs
    rw [← Bytes.write_resize c hs hhole.le] at hbig ⊢
    refine (h.fillTo hB hhole ?_).writeAll hB hs (by rw [Bytes.length_resize]) hbig
      (freshFree_fillTo hB hs hhole)
    rw [Bytes.write_resize c hs hhole.le] at hbig
    omega
  · rw [FileView.fillTo, if_neg (by omega)]
    exact h.writeAll hB hs hle hbig fun n _ _ _ hk => hk

/-- A write keeps the view tight. -/
theorem Tight.writeAt (ht : Tight B c s.1) (h : Holds B c s.1) (hB : 0 < B) (hs : src ≠ [])
    (hbig : (Bytes.write c offset src).length ≤ 2 ^ 32 * B) :
    Tight B (Bytes.write c offset src) (FileView.writeAt B c.length offset src s).1 := by
  rw [FileView.writeAt]
  rcases Nat.lt_or_ge c.length offset with hhole | hle
  · have hlen := Bytes.length_write c offset hs
    have hoff : offset ≤ 2 ^ 32 * B := by omega
    rw [← Bytes.write_resize c hs hhole.le] at hbig ⊢
    exact (ht.fillTo h hB hhole hoff).writeAll (h.fillTo hB hhole hoff) hB hs
      (by rw [Bytes.length_resize]) hbig (freshFree_fillTo hB hs hhole)
  · rw [FileView.fillTo, if_neg (by omega)]
    exact ht.writeAll h hB hs hle hbig fun n _ _ _ hk => hk

theorem Clean.writeAt (h : Clean B c s.1) (hB : 0 < B) (hs : src ≠ [])
    (hbig : (Bytes.write c offset src).length ≤ 2 ^ 32 * B) :
    Clean B (Bytes.write c offset src) (FileView.writeAt B c.length offset src s).1 := by
  rw [FileView.writeAt]
  rcases Nat.lt_or_ge c.length offset with hhole | hle
  · have hlen := Bytes.length_write c offset hs
    have hoff : offset ≤ 2 ^ 32 * B := by omega
    rw [← Bytes.write_resize c hs hhole.le] at hbig ⊢
    exact (h.fillTo hB hhole hoff).writeAll hB hs (by rw [Bytes.length_resize]) hbig
  · rw [FileView.fillTo, if_neg (by omega)]
    exact h.writeAll hB hs hle hbig

theorem Bounded.writeAt (h : Bounded B s.1) (hB : 0 < B) (hs : src ≠ []) :
    Bounded B (FileView.writeAt B size offset src s).1 := by
  rw [FileView.writeAt, FileView.fillTo]
  split_ifs with hhole
  · exact (h.writeAll hB (replicate_ne_nil hhole)).writeAll hB hs
  · exact h.writeAll hB hs

theorem Ids.writeAt {Q : ℤ → Prop} (h : Ids Q s.1) (hB : 0 < B) (hs : src ≠ [])
    (hQ : ∀ n : ℕ, n * B < offset + src.length → Q (toInt n)) :
    Ids Q (FileView.writeAt B size offset src s).1 := by
  rw [FileView.writeAt]
  exact (h.fillTo hB fun n hn => hQ n (by omega)).writeAll hB hs hQ

theorem Numbered.writeAt (h : Numbered s.1) (hB : 0 < B) (hs : src ≠ [])
    (hstop : offset + src.length ≤ 2 ^ 31 * B) :
    Numbered (FileView.writeAt B size offset src s).1 :=
  Ids.writeAt h hB hs fun _ hn => toInt_nonneg hstop hn

lemma length_disk_writeAt (hB : 0 < B) (hs : src ≠ []) {N : ℕ} (h : s.1.disk.length ≤ N)
    (hstop : offset + src.length ≤ N) :
    (FileView.writeAt B size offset src s).1.disk.length ≤ N :=
  length_disk_writeAll hB hs (length_disk_fillTo hB h (by omega)) hstop

/-! ### Enough free pages -/

variable (known) in
/-- With enough free pages every block of a write is stored. -/
lemma writeAll_enough {S : Finset ℤ}
    (hS : ∀ n ∈ blocksOf B offset (offset + src.length), toInt n ∈ S) (hen : s.1.missing S ≤ s.2) :
    (writeAll B known offset src s).1 = s.1.writeBlocks B known (fun _ => true) offset src ∧
      (writeAll B known offset src s).2 + s.1.missing S
        = s.2 + (writeAll B known offset src s).1.missing S := by
  obtain ⟨stored, hfile, hW⟩ := writeAll_spec B known offset src s
  obtain ⟨hall, hbal⟩ := hW.enough S hS hen
  refine ⟨?_, hbal⟩
  rw [hfile, writeBlocks, writeBlocks]
  refine List.foldl_ext _ _ _ fun f n hn => ?_
  rw [hall n hn]

/-- With enough free pages every block is resident after the turns. -/
lemma isSome_turns_of_enough {S : Finset ℤ} (l : List ℕ) (s : FileView × ℕ)
    (hS : ∀ n ∈ l, toInt n ∈ S) (hen : s.1.missing S ≤ s.2) {n : ℕ} (hn : n ∈ l) :
    ((turns B known offset src l s).1.blocks (toInt n)).isSome := by
  induction l generalizing s with
  | nil => cases hn
  | cons m l ih =>
      obtain ⟨hfinds, hbal⟩ := missing_turn B known offset src (hS m List.mem_cons_self) hen
      rcases List.mem_cons.mp hn with rfl | hn
      · exact isSome_turns l _ (isSome_writeBlock (.inr hfinds))
      · exact ih _ (fun k hk => hS k (List.mem_cons_of_mem _ hk)) (by omega) hn

/-- A write when every block is stored. -/
def writeStored (B size offset : ℕ) (src : List UInt8) (f : FileView) : FileView :=
  (if size < offset then
      f.writeBlocks B size (fun _ => true) size (List.replicate (offset - size) 0)
    else f).writeBlocks B size (fun _ => true) offset src

/-- **With enough free pages** for the blocks from the end of the file on, a write stores every
block, and takes a page for each one that was not resident. -/
theorem writeAt_enough (hB : 0 < B) (hs : src ≠ []) {S : Finset ℤ}
    (hS : ∀ n ∈ blocksOf B (min size offset) (offset + src.length), toInt n ∈ S)
    (hen : s.1.missing S ≤ s.2) :
    (writeAt B size offset src s).1 = s.1.writeStored B size offset src ∧
      (writeAt B size offset src s).2 + s.1.missing S
        = s.2 + (writeAt B size offset src s).1.missing S := by
  have hpos : 0 < src.length := List.length_pos_of_ne_nil hs
  have hmain : ∀ n ∈ blocksOf B offset (offset + src.length), toInt n ∈ S := by
    intro n hn
    obtain ⟨g1, g2⟩ := (mem_blocksOf hB (by omega)).mp hn
    exact hS n ((mem_blocksOf hB (by omega)).mpr ⟨g1, by omega⟩)
  rw [writeAt, fillTo, writeStored]
  split_ifs with hhole
  · have hlen : size + (List.replicate (offset - size) (0 : UInt8)).length = offset := by
      rw [List.length_replicate]
      omega
    have hfill : ∀ n ∈ blocksOf B size (size + (List.replicate (offset - size) (0 : UInt8)).length),
        toInt n ∈ S := by
      intro n hn
      rw [hlen] at hn
      obtain ⟨g1, g2⟩ := (mem_blocksOf hB hhole).mp hn
      exact hS n ((mem_blocksOf hB (by omega)).mpr ⟨by omega, by omega⟩)
    obtain ⟨h1, h2⟩ := writeAll_enough size hfill hen
    obtain ⟨h3, h4⟩ := writeAll_enough size hmain
      (show (writeAll B size size (List.replicate (offset - size) 0) s).1.missing S
        ≤ (writeAll B size size (List.replicate (offset - size) 0) s).2 by omega)
    exact ⟨by rw [h3, h1], by omega⟩
  · exact writeAll_enough size hmain hen

/-- A write that stores every block leaves the backing file alone. -/
lemma disk_writeStored : (f.writeStored B size offset src).disk = f.disk := by
  rw [writeStored, disk_writeBlocks fun _ _ => rfl]
  split_ifs
  · exact disk_writeBlocks fun _ _ => rfl
  · rfl

end

end FileView

end LazyFS
