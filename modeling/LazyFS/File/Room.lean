import LazyFS.File.Ops

/-!
How many pages the blocks of some files take.

* `Good.card_le_freePages`: blocks that are in no page find one, when all that may be in pages fit.
* `Sound.missing_le_free`: the same for the blocks of one file, when every resident block of every
  file is one of a set that fits in the cache.
-/

namespace LazyFS

variable {cfg : Config}

/-- A page is free or in use. -/
lemma Cache.Good.card_used_add_free {c : Cache} {tbl : PageTable} (hG : c.Good cfg tbl) :
    ((Finset.range cfg.cacheNrPages).filter fun p => ¬ tbl p = none).card
      + c.engine.freePages.length
      = cfg.cacheNrPages := by
  have hfree : c.engine.freePages.toFinset
      = (Finset.range cfg.cacheNrPages).filter fun p => tbl p = none := by
    ext p
    rw [List.mem_toFinset, hG.rep.mem_free, Finset.mem_filter, Finset.mem_range]
    exact ⟨fun h => ⟨h.1, h.2.1⟩, fun h => ⟨h.1, h.2, by simp⟩⟩
  have hlen : c.engine.freePages.length
      = ((Finset.range cfg.cacheNrPages).filter fun p => tbl p = none).card := by
    rw [← hfree, List.toFinset_card_of_nodup hG.rep.nodup]
  have hsplit := Finset.card_filter_add_card_filter_not
    (s := Finset.range cfg.cacheNrPages) (fun p => tbl p = none)
  rw [Finset.card_range] at hsplit
  omega

/-- **Blocks that are in no page find one**, when they and all that are in pages are of a set that
is no larger than the cache. -/
theorem Cache.Good.card_le_freePages {c : Cache} {tbl : PageTable} (hG : c.Good cfg tbl)
    {R M : Finset (String × ℤ)} (hR : ∀ p o b, tbl p = some (o, b) → (o, b) ∈ R) (hM : M ⊆ R)
    (hnone : ∀ x ∈ M, ∀ p, tbl p ≠ some x) (hcard : R.card ≤ cfg.cacheNrPages) :
    M.card ≤ c.engine.freePages.length := by
  have hused : ((Finset.range cfg.cacheNrPages).filter fun p => ¬ tbl p = none).card
      ≤ (R \ M).card := by
    refine Finset.card_le_card_of_injOn (fun p => (tbl p).getD ("", 0)) ?_ ?_
    · intro p hp
      obtain ⟨-, hne⟩ := Finset.mem_filter.mp hp
      obtain ⟨⟨o, b⟩, hob⟩ := Option.ne_none_iff_exists'.mp hne
      simp only [hob, Option.getD_some, Finset.coe_sdiff, Set.mem_sdiff, Finset.mem_coe]
      exact ⟨hR p o b hob, fun hmem => hnone _ hmem p hob⟩
    · intro p hp q hq hpq
      obtain ⟨⟨o, b⟩, hob⟩ := Option.ne_none_iff_exists'.mp (Finset.mem_filter.mp hp).2
      obtain ⟨⟨o', b'⟩, hob'⟩ := Option.ne_none_iff_exists'.mp (Finset.mem_filter.mp hq).2
      simp only [hob, hob', Option.getD_some, Prod.mk.injEq] at hpq
      obtain ⟨rfl, rfl⟩ := hpq
      exact hG.tbl_inj hob hob'
  have hsub := Finset.card_sdiff_of_subset hM
  have hle := Finset.card_le_card hM
  have htotal := hG.card_used_add_free
  omega

namespace FS

variable {fs : FS}

/-- A block in a page is a resident block of a file. -/
lemma Sound.resident_of_tbl (hS : fs.Sound cfg) {tbl : PageTable}
    (hG : fs.cache.Good cfg tbl) {p : ℕ} {o : String} {b : ℤ} (hp : tbl p = some (o, b)) :
    ∃ j, o = inodeStr j ∧ (fs.file cfg j).blocks b ≠ none := by
  obtain ⟨it, info, hit, -, -, hv⟩ := hG.view_of_tbl hp
  obtain ⟨j, rfl⟩ := hS.keys o (by
    rw [Cache.getContentMetadata, hit]
    exact Option.some_ne_none _)
  refine ⟨j, rfl, ?_⟩
  change fs.cache.view cfg (inodeStr j) b ≠ none
  rw [hv]
  exact Option.some_ne_none _

/-- **The blocks of a file that are not resident find pages**, when they and every resident block of
every file are of a set that is no larger than the cache. -/
theorem Sound.missing_le_free (hS : fs.Sound cfg) {R : Finset (ℕ × ℤ)}
    (hR : ∀ j, FileView.Ids (fun b => (j, b) ∈ R) (fs.file cfg j))
    (hcard : R.card ≤ cfg.cacheNrPages) {i : ℕ} {S : Finset ℤ} (hin : ∀ b ∈ S, (i, b) ∈ R) :
    (fs.file cfg i).missing S ≤ fs.free := by
  obtain ⟨tbl, hG⟩ := hS.good
  let key : ℕ × ℤ → String × ℤ := fun x => (inodeStr x.1, x.2)
  have hkey : Function.Injective key := fun x y hxy =>
    Prod.ext (inodeStr_injective (congrArg (Prod.fst (β := ℤ)) hxy))
      (congrArg (Prod.snd (α := String)) hxy)
  let M : Finset (ℕ × ℤ) :=
    (S.filter fun b => ((fs.file cfg i).blocks b).isNone).image fun b => (i, b)
  have hcardM : M.card = (fs.file cfg i).missing S :=
    Finset.card_image_of_injective _ fun a b hab => congrArg Prod.snd hab
  rw [← hcardM, ← Finset.card_image_of_injective M hkey]
  refine hG.card_le_freePages (R := R.image key) ?_ ?_ ?_ ?_
  · intro p o b hp
    obtain ⟨j, rfl, hj⟩ := hS.resident_of_tbl hG hp
    exact Finset.mem_image.mpr ⟨(j, b), hR j b hj, rfl⟩
  · refine Finset.image_subset_image fun x hx => ?_
    obtain ⟨b, hb, rfl⟩ := Finset.mem_image.mp hx
    exact hin b (Finset.mem_filter.mp hb).1
  · intro x hx p hp
    obtain ⟨y, hy, rfl⟩ := Finset.mem_image.mp hx
    obtain ⟨b, hb, rfl⟩ := Finset.mem_image.mp hy
    have hnone := (Finset.mem_filter.mp hb).2
    exact hG.tbl_ne_of_view (Option.isNone_iff_eq_none.mp hnone) p hp
  · rw [Finset.card_image_of_injective R hkey]
    exact hcard

end FS

end LazyFS
