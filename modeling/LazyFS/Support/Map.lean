import Mathlib.Tactic
import Mathlib.Data.List.AList
import Mathlib.Data.List.Sort

/-!
Finite maps in the manner of the C++ containers, over the association lists of Mathlib.

* `Map κ α`: association lists without repeated keys, read with `AList.lookup`.
* `insertNew`: `insert` of the C++ maps, which keeps an existing value; `set`: assignment through
  `operator[]`, which replaces it; `AList.erase` erases. `lookup_insertNew`, `lookup_set` and
  `lookup_erase'` determine them by their lookups.
* `toList`: the entries in the order of an unordered container; `sorted`: the entries of an
  integer-keyed map in ascending order of the keys, the order of `std::map`.
* `update`: a value replaced at a key that is present; `single`: the map of one entry.
* `keysOf`: the keys of a value, counted by `card_keysOf`; `lookup_foldl_set`: a map whose keys are
  renamed.
-/

/-- Maps with keys in `κ` and values in `α`. -/
abbrev Map (κ α : Type) := AList fun _ : κ => α

namespace Map

variable {κ α : Type} [DecidableEq κ]

/-- `insert` of the C++ maps: a key that is present keeps its value. -/
def insertNew (m : Map κ α) (k : κ) (v : α) : Map κ α :=
  if (m.lookup k).isSome then m else AList.insert k v m

/-- `operator[]` on the left of an assignment: the value at the key is replaced. -/
def set (m : Map κ α) (k : κ) (v : α) : Map κ α := AList.insert k v m

/-- The value at a key that is present is changed by `f`; an absent key stays absent. -/
def update (m : Map κ α) (k : κ) (f : α → α) : Map κ α :=
  match m.lookup k with
  | some v => AList.insert k (f v) m
  | none => m

/-! ### Lookups -/

lemma lookup_set (m : Map κ α) (k k' : κ) (v : α) :
    (m.set k v).lookup k' = if k' = k then some v else m.lookup k' := by
  by_cases h : k' = k
  · rw [if_pos h, h, set, AList.lookup_insert]
  · rw [if_neg h, set, AList.lookup_insert_ne h]

@[simp] lemma lookup_set_self (m : Map κ α) (k : κ) (v : α) : (m.set k v).lookup k = some v :=
  AList.lookup_insert m

lemma lookup_set_ne (m : Map κ α) {k k' : κ} (v : α) (h : k' ≠ k) :
    (m.set k v).lookup k' = m.lookup k' := AList.lookup_insert_ne h

lemma lookup_insertNew (m : Map κ α) (k k' : κ) (v : α) :
    (m.insertNew k v).lookup k' = if k' = k then some ((m.lookup k).getD v) else m.lookup k' := by
  by_cases hs : (m.lookup k).isSome
  · obtain ⟨w, hw⟩ := Option.isSome_iff_exists.mp hs
    rw [insertNew, if_pos hs]
    by_cases h : k' = k
    · rw [if_pos h, h, hw, Option.getD_some]
    · rw [if_neg h]
  · rw [insertNew, if_neg hs]
    rw [Option.not_isSome_iff_eq_none] at hs
    rw [hs, Option.getD_none]
    exact lookup_set m k k' v

lemma lookup_insertNew_ne (m : Map κ α) {k k' : κ} (v : α) (h : k' ≠ k) :
    (m.insertNew k v).lookup k' = m.lookup k' := by
  rw [lookup_insertNew, if_neg h]

/-- Into a map without the key, `insert` stores the value. -/
lemma insertNew_of_none (m : Map κ α) {k : κ} (v : α) (h : m.lookup k = none) :
    m.insertNew k v = m.set k v := by
  rw [insertNew, h]
  rfl

lemma lookup_erase' (m : Map κ α) (k k' : κ) :
    (AList.erase k m).lookup k' = if k' = k then none else m.lookup k' := by
  by_cases h : k' = k
  · rw [if_pos h, h, AList.lookup_erase]
  · rw [if_neg h, AList.lookup_erase_ne h]

lemma lookup_update (m : Map κ α) (k k' : κ) (f : α → α) :
    (m.update k f).lookup k' = if k' = k then (m.lookup k).map f else m.lookup k' := by
  cases hk : m.lookup k with
  | none =>
      have hu : m.update k f = m := by rw [update, hk]
      rw [hu]
      by_cases h : k' = k
      · rw [if_pos h, h, hk, Option.map_none]
      · rw [if_neg h]
  | some v =>
      have hu : m.update k f = m.set k (f v) := by rw [update, hk]; rfl
      rw [hu, lookup_set, Option.map_some]

lemma lookup_update_ne (m : Map κ α) {k k' : κ} (f : α → α) (h : k' ≠ k) :
    (m.update k f).lookup k' = m.lookup k' := by
  rw [lookup_update, if_neg h]

lemma isSome_lookup_update (m : Map κ α) (k k' : κ) (f : α → α) :
    ((m.update k f).lookup k').isSome = (m.lookup k').isSome := by
  rw [lookup_update]
  split_ifs with h
  · rw [h, Option.isSome_map]
  · rfl

/-! ### Entries -/

/-- The entries in the order in which the container holds them. -/
def toList (m : Map κ α) : List (κ × α) := m.entries.map fun e => (e.1, e.2)

lemma mem_toList {m : Map κ α} {k : κ} {v : α} : (k, v) ∈ m.toList ↔ m.lookup k = some v := by
  rw [toList, List.mem_map, ← Option.mem_def, AList.mem_lookup_iff]
  constructor
  · rintro ⟨⟨a, b⟩, he, h⟩
    rw [Prod.mk.injEq] at h
    obtain ⟨rfl, rfl⟩ := h
    exact he
  · exact fun h => ⟨⟨k, v⟩, h, rfl⟩

omit [DecidableEq κ] in
lemma map_fst_toList (m : Map κ α) : m.toList.map Prod.fst = m.keys := by
  rw [toList, List.map_map]
  rfl

omit [DecidableEq κ] in
lemma nodup_map_fst_toList (m : Map κ α) : (m.toList.map Prod.fst).Nodup := by
  rw [map_fst_toList]
  exact m.keys_nodup

/-- A map in which every lookup fails has no entries. -/
lemma entries_nil_of_lookup {m : Map κ α} (h : ∀ k, m.lookup k = none) : m.entries = [] := by
  rw [List.eq_nil_iff_forall_not_mem]
  rintro ⟨k, v⟩ he
  have h1 : m.lookup k = some v := AList.mem_lookup_iff.mpr he
  rw [h k] at h1
  cases h1

lemma eq_empty_of_lookup {m : Map κ α} (h : ∀ k, m.lookup k = none) : m = ∅ :=
  AList.ext (entries_nil_of_lookup h)

/-! ### One entry -/

/-- The map with one entry. -/
def single (k : κ) (v : α) : Map κ α := Map.set ∅ k v

lemma entries_single (k : κ) (v : α) : (single k v).entries = [⟨k, v⟩] := by
  rw [single, set, AList.insert_empty, AList.singleton_entries]

lemma lookup_single (k k' : κ) (v : α) :
    (single k v).lookup k' = if k' = k then some v else none := by
  rw [single, lookup_set, AList.lookup_empty]

@[simp] lemma lookup_single_self (k : κ) (v : α) : (single k v).lookup k = some v := by
  rw [lookup_single, if_pos rfl]

lemma insertNew_empty (k : κ) (v : α) : Map.insertNew ∅ k v = single k v :=
  insertNew_of_none _ _ (AList.lookup_empty k)

private lemma kerase_entry (k : κ) (v : α) :
    List.kerase k [⟨k, v⟩] = ([] : List (Sigma fun _ : κ => α)) := List.kerase_cons_eq rfl

lemma set_single (k : κ) (v w : α) : (single k v).set k w = single k w := by
  refine AList.ext ?_
  rw [set, AList.entries_insert, entries_single, entries_single, kerase_entry]

lemma erase_single (k : κ) (v : α) : AList.erase k (single k v) = (∅ : Map κ α) := by
  refine AList.ext ?_
  have h : (AList.erase k (single k v)).entries = List.kerase k (single k v).entries := rfl
  rw [h, entries_single, kerase_entry]
  rfl

lemma toList_single (k : κ) (v : α) : (single k v).toList = [(k, v)] := by
  rw [toList, entries_single, List.map_singleton]

/-! ### The keys of a value -/

section

variable [DecidableEq α]

/-- The keys with a given value. -/
def keysOf (m : Map κ α) (v : α) : Finset κ :=
  ((m.toList.filter fun e => e.2 = v).map Prod.fst).toFinset

@[simp] lemma mem_keysOf {m : Map κ α} {v : α} {k : κ} : k ∈ m.keysOf v ↔ m.lookup k = some v := by
  rw [keysOf, List.mem_toFinset, List.mem_map, ← mem_toList]
  constructor
  · rintro ⟨⟨k', v'⟩, h, rfl⟩
    obtain ⟨hmem, hv⟩ := List.mem_filter.mp h
    rwa [← of_decide_eq_true hv]
  · exact fun h => ⟨(k, v), List.mem_filter.mpr ⟨h, decide_eq_true rfl⟩, rfl⟩

/-- There are as many of them as entries with the value. -/
lemma card_keysOf (m : Map κ α) (v : α) :
    (m.keysOf v).card = (m.toList.filter fun e => e.2 = v).length := by
  rw [keysOf, List.toFinset_card_of_nodup, List.length_map]
  exact (nodup_map_fst_toList m).sublist (List.filter_sublist.map _)

end

/-! ### Keys renamed -/

/-- A map filled with the entries of a list under new keys, no two of which are the same. -/
lemma lookup_foldl_set {β : Type} (f : β → κ) (l : List (β × α)) (hl : (l.map fun e => f e.1).Nodup)
    (m : Map κ α) (k : κ) (v : α) :
    (l.foldl (fun m e => m.set (f e.1) e.2) m).lookup k = some v ↔
      (∃ b, (b, v) ∈ l ∧ f b = k) ∨ (m.lookup k = some v ∧ ∀ e ∈ l, f e.1 ≠ k) := by
  induction l generalizing m with
  | nil => simp
  | cons x l ih =>
      rw [List.map_cons, List.nodup_cons] at hl
      rw [List.foldl_cons, ih hl.2, lookup_set]
      by_cases hk : k = f x.1
      · have hnot : ∀ b v', (b, v') ∈ l → f b ≠ f x.1 := fun b v' hb heq =>
          hl.1 (List.mem_map.mpr ⟨(b, v'), hb, heq⟩)
        subst hk
        rw [if_pos rfl]
        constructor
        · rintro (⟨b, hb, heq⟩ | ⟨hv, -⟩)
          · exact absurd heq (hnot b v hb)
          · rw [Option.some.injEq] at hv
            exact .inl ⟨x.1, by rw [← hv]; exact List.mem_cons_self, rfl⟩
        · rintro (⟨b, hb, heq⟩ | ⟨-, hall⟩)
          · rcases List.mem_cons.mp hb with rfl | hb
            · exact .inr ⟨rfl, fun e he => hnot e.1 e.2 he⟩
            · exact absurd heq (hnot b v hb)
          · exact absurd rfl (hall x List.mem_cons_self)
      · rw [if_neg hk]
        constructor
        · rintro (⟨b, hb, heq⟩ | ⟨hv, hall⟩)
          · exact .inl ⟨b, List.mem_cons_of_mem _ hb, heq⟩
          · exact .inr ⟨hv, List.forall_mem_cons.mpr ⟨Ne.symm hk, hall⟩⟩
        · rintro (⟨b, hb, heq⟩ | ⟨hv, hall⟩)
          · rcases List.mem_cons.mp hb with rfl | hb
            · exact absurd heq.symm hk
            · exact .inl ⟨b, hb, heq⟩
          · exact .inr ⟨hv, (List.forall_mem_cons.mp hall).2⟩

/-! ### Ascending order -/

/-- The entries of an integer-keyed map in ascending order of the keys. -/
def sorted (m : Map ℤ α) : List (ℤ × α) := m.toList.insertionSort fun a b => a.1 ≤ b.1

lemma sorted_perm (m : Map ℤ α) : m.sorted.Perm m.toList := List.perm_insertionSort _ _

lemma mem_sorted {m : Map ℤ α} {k : ℤ} {v : α} : (k, v) ∈ m.sorted ↔ m.lookup k = some v := by
  rw [(sorted_perm m).mem_iff, mem_toList]

lemma mem_map_fst_sorted {m : Map ℤ α} {k : ℤ} : k ∈ m.sorted.map Prod.fst ↔
    (m.lookup k).isSome := by
  rw [List.mem_map, Option.isSome_iff_exists]
  constructor
  · rintro ⟨⟨k', v⟩, h, rfl⟩
    exact ⟨v, mem_sorted.mp h⟩
  · rintro ⟨v, h⟩
    exact ⟨(k, v), mem_sorted.mpr h, rfl⟩

lemma nodup_map_fst_sorted (m : Map ℤ α) : (m.sorted.map Prod.fst).Nodup :=
  ((sorted_perm m).map Prod.fst).nodup_iff.mpr (nodup_map_fst_toList m)

lemma sorted_le (m : Map ℤ α) : m.sorted.Pairwise fun a b => a.1 ≤ b.1 := by
  have : IsTrans (ℤ × α) fun a b => a.1 ≤ b.1 := ⟨fun _ _ _ h h' => le_trans h h'⟩
  have : Std.Total fun (a b : ℤ × α) => a.1 ≤ b.1 := ⟨fun a b => le_total a.1 b.1⟩
  exact List.pairwise_insertionSort _ _

@[simp] lemma sorted_empty : (∅ : Map ℤ α).sorted = [] := rfl

@[simp] lemma sorted_single (k : ℤ) (v : α) : (single k v).sorted = [(k, v)] := by
  rw [sorted, toList_single]
  rfl

/-- The keys strictly ascend. -/
lemma sorted_lt (m : Map ℤ α) : m.sorted.Pairwise fun a b => a.1 < b.1 := by
  have hne : m.sorted.Pairwise fun a b => a.1 ≠ b.1 := by
    have h := nodup_map_fst_sorted m
    rw [List.Nodup, List.pairwise_map] at h
    exact h
  exact (sorted_le m).imp₂ (fun _ _ hle hne => lt_of_le_of_ne hle hne) hne

end Map
