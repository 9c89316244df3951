import LazyFS.File.SyncOp
import LazyFS.File.Read

/-!
What is left of the contents after a write-back and after `clear_all_cache`.

* `FileView.Plain`: a block id of the contents that is not resident is not resident under another
  number.
* `Holds.cleaned`, `Bounded.cleaned`, `Tight.cleaned`: a write-back keeps the contents, whatever
  becomes of its calls.
* `Holds.durable`: a write-back that succeeded leaves the contents in the backing file;
  `Holds.resize_durable` and `Holds.eq_durable` are the file after the truncation at its end, and
  without it.
* `Sound.clearAllCache`: no block and no item is left, and the backing file system is as it was.
-/

namespace LazyFS

open Engine

namespace FileView

variable {B : ℕ} {f : FileView} {c disk' : List UInt8}

/-- A block of the contents that is not resident is not resident under its own number either. -/
def Plain (B : ℕ) (c : List UInt8) (f : FileView) : Prop :=
  ∀ n : ℕ, n * B < c.length → f.blocks (toInt n) = none → f.blocks (n : ℤ) = none

/-- The number of a block of a file of less than `2^31` blocks. -/
lemma toInt_of_small (hsmall : c.length ≤ 2 ^ 31 * B) {n : ℕ} (hn : n * B < c.length) :
    toInt n = n :=
  toInt_of_lt (lt_of_mul_lt_mul_right (hn.trans_le hsmall) (Nat.zero_le B))

/-- The blocks of fewer than `2^32` have numbers of their own. -/
lemma Snug.plain (h : Snug B c f) (hbig : c.length < 2 ^ 32 * B) : Plain B c f := by
  intro n hn hnone
  by_contra hne
  obtain ⟨v, hv⟩ := Option.ne_none_iff_exists'.mp hne
  obtain ⟨m, hm, hm1, -⟩ := h _ v hv
  have hm32 : m < 2 ^ 32 := lt_of_mul_lt_mul_right (hm1.trans hbig) (Nat.zero_le B)
  have hmm : toInt m = m := toInt_of_nonneg hm32 (by omega)
  have hnm : (n : ℤ) = m := by omega
  rw [hnm, ← hmm, ← hm, hnm] at hv
  rw [show n = m by omega, hmm, hv] at hnone
  cases hnone

/-! ### A write-back keeps the contents -/

lemma blocks_cleaned (b : ℤ) : (f.cleaned disk').blocks b
    = (f.blocks b).map fun v => { v with dirty := false } := rfl

/-- A position of a block that is not resident, or of a clean one, is kept. -/
lemma Flushed.kept_of_getElem? (hF : Flushed B f disk') {i : ℕ} (hi : i < c.length)
    (hd : f.disk[i]? = (c)[i]?)
    (hclean : ∀ v, f.blocks ((i / B : ℕ) : ℤ) = some v → v.dirty = false) :
    disk'[i]? = (c)[i]? := by
  rw [List.getElem?_eq_getElem hi] at hd
  rw [hF.kept i (List.getElem?_eq_some_iff.mp hd).1 hclean, hd, List.getElem?_eq_getElem hi]

/-- **A write-back keeps the contents**, whatever becomes of its calls. -/
theorem Holds.cleaned (h : Holds B c f) (hP : Plain B c f) (hF : Flushed B f disk') {d : List UInt8}
    (hd : d = disk' ∨ d = Bytes.resize disk' c.length) : Holds B c (f.cleaned d) := by
  intro i hi
  have hlo : i / B * B < c.length := (Nat.div_mul_le_self i B).trans_lt hi
  cases hv : f.blocks (toInt (i / B : ℕ)) with
  | some v =>
      rw [at_some (by rw [blocks_cleaned, hv]; rfl)]
      exact (at_some hv).mp (h i hi)
  | none =>
      rw [at_none (by rw [blocks_cleaned, hv]; rfl)]
      have hdisk := hF.kept_of_getElem? hi ((at_none hv).mp (h i hi)) fun v hv' => by
        rw [hP _ hlo hv] at hv'
        cases hv'
      rcases hd with rfl | rfl
      · exact hdisk
      · rw [← hdisk]
        rw [List.getElem?_eq_getElem hi] at hdisk
        exact Bytes.getElem?_resize_of_lt _ hi (List.getElem?_eq_some_iff.mp hdisk).1

lemma Numbered.cleaned (h : Numbered f) (d : List UInt8) : Numbered (f.cleaned d) := by
  intro b hb
  rw [blocks_cleaned, Ne, Option.map_eq_none_iff] at hb
  exact h b hb

lemma Bounded.cleaned (h : Bounded B f) (d : List UInt8) : Bounded B (f.cleaned d) := by
  intro b v hv
  rw [blocks_cleaned, Option.map_eq_some_iff] at hv
  obtain ⟨w, hw, rfl⟩ := hv
  exact h b w hw

lemma Clamped.cleaned (h : Clamped B c f) {d : List UInt8}
    (hd : f.disk.length ≤ c.length → d.length ≤ c.length) : Clamped B c (f.cleaned d) := by
  refine ⟨fun n v hn hv => ?_, fun n h1 h2 hnone => hd (h.rest n h1 h2 ?_)⟩
  · rw [blocks_cleaned, Option.map_eq_some_iff] at hv
    obtain ⟨w, hw, rfl⟩ := hv
    exact h.blocks n w hn hw
  · rwa [blocks_cleaned, Option.map_eq_none_iff] at hnone

/-! ### A write-back that succeeded -/

/-- **The contents are in the backing file** after a write-back that succeeded. -/
theorem Holds.durable (h : Holds B c f) (hC : Clean B c f) (hsmall : c.length ≤ 2 ^ 31 * B)
    (hF : Flushed B f disk') (hD : Durable B f disk') : ∀ i < c.length, disk'[i]? = (c)[i]? := by
  intro i hi
  have hlo : i / B * B < c.length := (Nat.div_mul_le_self i B).trans_lt hi
  have hid : toInt (i / B : ℕ) = (i / B : ℕ) := toInt_of_small hsmall hlo
  cases hv : f.blocks (toInt (i / B : ℕ)) with
  | some v =>
      obtain ⟨h1, h2⟩ := (at_some hv).mp (h i hi)
      cases hdirty : v.dirty with
      | true =>
          have hval := hD (i / B) v (i % B) (by rw [← hid]; exact hv) hdirty h1
          rw [Nat.div_add_mod'] at hval
          rw [hval, h2]
      | false =>
          refine hF.kept_of_getElem? hi (hC i hi v hv hdirty) fun w hw => ?_
          rw [← hid, hv, Option.some.injEq] at hw
          rw [← hw]
          exact hdirty
  | none =>
      refine hF.kept_of_getElem? hi ((at_none hv).mp (h i hi)) fun w hw => ?_
      rw [← hid, hv] at hw
      cases hw

/-- The file after the truncation at the end of a write-back. -/
lemma resize_eq (h : ∀ i < c.length, disk'[i]? = (c)[i]?) : Bytes.resize disk' c.length = c := by
  refine Bytes.eq_of_agree (Bytes.length_resize _ _) fun i _ hi => ?_
  rw [Bytes.length_resize] at hi
  rw [← h i hi]
  have hval := h i hi
  rw [List.getElem?_eq_getElem hi] at hval
  exact Bytes.getElem?_resize_of_lt _ hi (List.getElem?_eq_some_iff.mp hval).1

/-- The file without that truncation, when nothing past the end was there or was written. -/
lemma eq_of_length_le (h : ∀ i < c.length, disk'[i]? = (c)[i]?) (hle : disk'.length ≤ c.length) :
    disk' = c := by
  have hge : c.length ≤ disk'.length := by
    by_contra hlt
    have hval := h disk'.length (by omega)
    rw [List.getElem?_eq_none le_rfl, List.getElem?_eq_getElem (by omega)] at hval
    cases hval
  exact Bytes.eq_of_agree (by omega) fun i _ hi => h i (by omega)

/-- A file that is wholly in the backing file, with clean blocks, has its contents. -/
lemma Holds.cleaned_self (h : Holds B c f) : Holds B c (f.cleaned c) := by
  intro i hi
  cases hv : f.blocks (toInt (i / B : ℕ)) with
  | some v =>
      rw [at_some (by rw [blocks_cleaned, hv]; rfl)]
      exact (at_some hv).mp (h i hi)
  | none => exact (at_none (by rw [blocks_cleaned, hv]; rfl)).mpr rfl

lemma clean_cleaned_self : Clean B c (f.cleaned c) := fun _ _ _ _ _ => rfl

/-! ### A file without blocks -/

/-- A file with no resident block. -/
def bare (c : List UInt8) : FileView := ⟨fun _ => none, c⟩

lemma holds_bare : Holds B c (bare c) :=
  fun i _ => (at_none (f := bare c) (B := B) (i := i) rfl).mpr rfl

lemma bounded_bare : Bounded B (bare c) := fun _ _ hv => by cases hv

lemma clamped_bare : Clamped B c (bare c) := ⟨fun _ _ _ hv => (by cases hv), fun _ _ _ _ => le_rfl⟩

lemma numbered_bare : Numbered (bare c) := fun _ hb => absurd rfl hb

lemma clean_bare : Clean B c (bare c) := fun _ _ _ hv => by cases hv

end FileView

/-! ### `clear_all_cache` -/

variable {cfg : Config}

namespace Cache

variable {c : Cache}

/-- The removal of an item takes names and items away. -/
lemma lookup_removeCachedItem (c : Cache) (owner : String) (path : Path) :
    (∀ o, (c.removeCachedItem cfg owner path true).1.contents.lookup o ≠ none →
      c.contents.lookup o ≠ none) ∧
    ∀ p s, (c.removeCachedItem cfg owner path true).1.fileInodeMapping.lookup p = some s →
      c.fileInodeMapping.lookup p = some s := by
  cases hit : c.contents.lookup owner with
  | none =>
      rw [removeCachedItem, hit]
      exact ⟨fun _ h => h, fun _ _ h => h⟩
  | some it =>
      simp only [removeCachedItem, hit, Bool.not_true, Bool.false_eq_true, false_and, if_false]
      refine ⟨fun o ho => ?_, fun p s hp => ?_⟩
      · simp only [deleteItem, setItem, Map.lookup_erase', Map.lookup_set] at ho
        split_ifs at ho with hne
        · exact absurd rfl ho
        · exact ho
      · simp only [deleteItem, setItem, Map.lookup_erase'] at hp
        split_ifs at hp
        exact hp

variable (cfg) in
/-- After `clear_all_cache` no item is left, and no name is added. -/
lemma lookup_clearAllCache (c : Cache) :
    (∀ o, (c.clearAllCache cfg).contents.lookup o = none) ∧
    ∀ p s, (c.clearAllCache cfg).fileInodeMapping.lookup p = some s →
      c.fileInodeMapping.lookup p = some s := by
  -- the mapped files are removed first
  have h1 : ∀ (l : List (Path × String)) (c : Cache) (p : Path) (s : String),
      (l.foldl (fun c it => (c.removeCachedItem cfg it.2 it.1 true).1) c).fileInodeMapping.lookup p
        = some s → c.fileInodeMapping.lookup p = some s := by
    intro l
    induction l with
    | nil => exact fun _ _ _ h => h
    | cons x l ih => exact fun c p s h => (lookup_removeCachedItem c x.2 x.1).2 p s (ih _ p s h)
  -- then all items that are left
  have h2 : ∀ (l : List String) (c : Cache),
      (l.foldl (fun c cid => c.deleteItem cfg cid) c).fileInodeMapping = c.fileInodeMapping ∧
      ∀ o, (l.foldl (fun c cid => c.deleteItem cfg cid) c).contents.lookup o
        = if o ∈ l then none else c.contents.lookup o := by
    intro l
    induction l with
    | nil => exact fun _ => ⟨rfl, fun _ => by simp⟩
    | cons x l ih =>
        intro c
        obtain ⟨g1, g2⟩ := ih (c.deleteItem cfg x)
        refine ⟨g1, fun o => ?_⟩
        rw [List.foldl_cons, g2, deleteItem, Map.lookup_erase']
        by_cases ho : o = x
        · simp [ho]
        · simp [ho]
  rw [clearAllCache]
  have h3 := h1 (cfg.unordered c.fileInodeMapping.toList) c
  generalize (cfg.unordered c.fileInodeMapping.toList).foldl
    (fun c it => (c.removeCachedItem cfg it.2 it.1 true).1) c = c1 at h3 ⊢
  obtain ⟨g1, g2⟩ := h2 (cfg.unordered (c1.contents.toList.map Prod.fst)) c1
  refine ⟨fun o => ?_, fun p s hp => ?_⟩
  · rw [g2]
    split_ifs with ho
    · rfl
    · by_contra hne
      obtain ⟨it, hit⟩ := Option.ne_none_iff_exists'.mp hne
      exact ho ((cfg.unordered_perm _).mem_iff.mpr
        (List.mem_map.mpr ⟨(o, it), Map.mem_toList.mpr hit, rfl⟩))
  · rw [g1] at hp
    exact h3 p s hp

end Cache

namespace FS

variable {fs : FS}

/-- `clear_all_cache`, as the fault and the command call it. -/
def clearAllCache (cfg : Config) (fs : FS) : FS := fs.setCache (fs.cache.clearAllCache cfg)

/-- **`clear_all_cache`**: no block and no item is left, and every page is free. -/
theorem Sound.clearAllCache (h : OnePage cfg) (hS : fs.Sound cfg) :
    (fs.clearAllCache cfg).Sound cfg ∧ (fs.clearAllCache cfg).disk = fs.disk ∧
      (∀ i, (fs.clearAllCache cfg).metaOf i = none) ∧
      (∀ i, (fs.clearAllCache cfg).file cfg i = .bare (fs.disk.bytes i)) ∧
      (fs.clearAllCache cfg).free = cfg.cacheNrPages := by
  obtain ⟨tbl, hG⟩ := hS.good
  obtain ⟨tbl', hG'⟩ := hG.clearAllCache h
  obtain ⟨hitems, hmap⟩ := Cache.lookup_clearAllCache cfg fs.cache
  have hmeta : ∀ s, (fs.cache.clearAllCache cfg).getContentMetadata s = none :=
    fun s => Cache.contents_eq_none_iff.mpr (hitems s)
  have hempty : ∀ p, tbl' p = none := by
    intro p
    by_contra hne
    obtain ⟨⟨o, b⟩, hp⟩ := Option.ne_none_iff_exists'.mp hne
    have hk := hG'.known p o b hp
    rw [hitems o] at hk
    cases hk
  refine ⟨⟨⟨tbl', hG'⟩, fun p s hp => hS.named p s (hmap p s hp), fun s hs => absurd (hmeta s) hs⟩,
    rfl, fun i => hmeta _, fun i => ?_, ?_⟩
  · rw [FS.file, FileView.bare]
    congr 1
    funext b
    exact Cache.view_of_lookup_none (hitems _)
  · have hperm : (fs.cache.clearAllCache cfg).engine.freePages.Perm
        (List.range cfg.cacheNrPages) := by
      refine (List.perm_ext_iff_of_nodup hG'.rep.nodup List.nodup_range).mpr fun p => ?_
      rw [hG'.rep.mem_free, List.mem_range]
      exact ⟨fun hp => hp.1, fun hp => ⟨hp, hempty p, by simp⟩⟩
    exact hperm.length_eq.trans List.length_range

end FS

end LazyFS
