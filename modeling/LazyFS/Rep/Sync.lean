import LazyFS.Rep.Remove

/-!
Write-back on the page table: `sync_pages`.

* `numbered`: the elements of a list with consecutive block ids; `Streak.blocks`, and
  `blocks_streaks`: the streaks are the dirty blocks, cut into runs of consecutive ids.
* `Engine.Cleaned`: what write-back does to the engine, whatever becomes of its calls: the dirty
  pages of the owner become clean and the entries are marked.
* `Rep.syncPages` is the inversion, `Rep.syncPages_isSome` says when no exception is thrown.
-/

namespace LazyFS

/-- The elements of a list numbered from a block id on. -/
def numbered {α : Type} : ℤ → List α → List (ℤ × α)
  | _, [] => []
  | n, a :: as => (n, a) :: numbered (n + 1) as

lemma numbered_append {α : Type} (n : ℤ) (l l' : List α) :
    numbered n (l ++ l') = numbered n l ++ numbered (n + l.length) l' := by
  induction l generalizing n with
  | nil => simp [numbered]
  | cons a l ih =>
      rw [List.cons_append, numbered, ih, numbered, List.cons_append, List.length_cons]
      congr 3
      push_cast
      ring

lemma map_snd_numbered {α : Type} (n : ℤ) (l : List α) : (numbered n l).map Prod.snd = l := by
  induction l generalizing n with
  | nil => rfl
  | cons a l ih => rw [numbered, List.map_cons, ih]

namespace Engine

/-- The blocks of a streak. -/
def Streak.blocks (s : Streak) : List (ℤ × OrderedEntry) :=
  numbered (s.currentBlockId - s.pageChunk.length + 1) s.pageChunk

/-- A streak ends with the block that was added last. -/
lemma Streak.blocks_mk (blk : ℤ) (chunk : List OrderedEntry) (entry : OrderedEntry) :
    (⟨blk, chunk ++ [entry]⟩ : Streak).blocks = numbered (blk - chunk.length) chunk
      ++ [(blk, entry)] := by
  have hstart : blk - ((chunk ++ [entry]).length : ℤ) + 1 = blk - chunk.length := by
    rw [List.length_append, List.length_singleton]
    push_cast
    ring
  rw [Streak.blocks, hstart, numbered_append]
  simp [numbered]

/-- The streaks are the list, cut into runs of consecutive blocks; the chunk that was begun goes
before it. -/
lemma blocks_streaks (l : List (ℤ × OrderedEntry)) (chunk : List OrderedEntry) {blk : ℤ}
    {entry : OrderedEntry} (h : l.head? = some (blk, entry)) :
    (streaks l chunk).flatMap Streak.blocks = numbered (blk - chunk.length) chunk ++ l := by
  induction l generalizing chunk blk entry with
  | nil => cases h
  | cons x rest ih =>
      obtain ⟨b, en⟩ := x
      rw [List.head?_cons, Option.some.injEq, Prod.mk.injEq] at h
      obtain ⟨rfl, rfl⟩ := h
      cases rest with
      | nil => rw [streaks, List.flatMap_singleton, Streak.blocks_mk]
      | cons next rest =>
          obtain ⟨b', en'⟩ := next
          rw [streaks]
          split_ifs with hc
          · rw [ih (chunk ++ [en]) rfl]
            have hstart : b' - ((chunk ++ [en]).length : ℤ) = b - chunk.length := by
              rw [List.length_append, List.length_singleton]
              push_cast
              have h2 : b = b' - 1 := hc.2
              omega
            rw [hstart, numbered_append]
            simp [numbered]
          · rw [List.flatMap_cons, ih [] rfl, Streak.blocks_mk]
            simp [numbered]

/-- **The streaks of the dirty blocks**, one after the other, are the dirty blocks. -/
theorem flatMap_blocks_streaks (l : List (ℤ × OrderedEntry)) :
    (streaks l []).flatMap Streak.blocks = l := by
  cases l with
  | nil => rfl
  | cons x rest =>
      have hhead : (x :: rest).head? = some (x.1, x.2) := rfl
      rw [blocks_streaks (x :: rest) [] hhead]
      simp [numbered]

/-- No streak is empty. -/
lemma pageChunk_ne_nil (l : List (ℤ × OrderedEntry)) (chunk : List OrderedEntry) {s : Streak}
    (hs : s ∈ streaks l chunk) : s.pageChunk ≠ [] := by
  induction l generalizing chunk with
  | nil => simp [streaks] at hs
  | cons x rest ih =>
      cases rest with
      | nil =>
          rw [streaks, List.mem_singleton] at hs
          rw [hs]
          simp
      | cons next rest =>
          rw [streaks] at hs
          split_ifs at hs
          · exact ih _ hs
          · rcases List.mem_cons.mp hs with rfl | hs
            · simp
            · exact ih _ hs

variable {cfg : Config} {e e' : Engine} {tbl : PageTable}

/-! ### The dirty blocks -/

/-- A collected block comes from the list, and its page is dirty. -/
lemma mem_of_mem_dirtyLoop {l : List (ℤ × OrderedEntry)} {x : ℤ × OrderedEntry}
    (h : x ∈ e.dirtyLoop l) : x ∈ l ∧ (e.searchIndex x.2.pageId).isDirty = true := by
  induction l generalizing e with
  | nil => cases h
  | cons b l ih =>
      rw [dirtyLoop] at h
      split_ifs at h with hd
      · rcases List.mem_cons.mp h with rfl | h
        · exact ⟨List.mem_cons_self, hd⟩
        · obtain ⟨h1, h2⟩ := ih h
          refine ⟨List.mem_cons_of_mem _ h1, ?_⟩
          by_cases hp : x.2.pageId = b.2.pageId
          · rw [hp, hd]
          · rwa [searchIndex_setPage_ne e _ hp] at h2
      · obtain ⟨h1, h2⟩ := ih h
        exact ⟨List.mem_cons_of_mem _ h1, h2⟩

/-- Every dirty page named in the list is collected with one of its blocks. -/
lemma exists_mem_dirtyLoop {l : List (ℤ × OrderedEntry)} {x : ℤ × OrderedEntry} (hx : x ∈ l)
    (hd : (e.searchIndex x.2.pageId).isDirty = true) :
    ∃ y ∈ e.dirtyLoop l, y.2.pageId = x.2.pageId := by
  induction l generalizing e with
  | nil => cases hx
  | cons b l ih =>
      rw [dirtyLoop]
      by_cases hp : x.2.pageId = b.2.pageId
      · rw [hp] at hd
        rw [if_pos hd]
        exact ⟨b, List.mem_cons_self, hp.symm⟩
      · have hx' : x ∈ l := (List.mem_cons.mp hx).resolve_left fun heq => hp (by rw [heq])
        split_ifs with hb
        · have hd' : ((e.setPage b.2.pageId ((e.searchIndex b.2.pageId).setPageAsDirty
              false)).searchIndex
              x.2.pageId).isDirty = true := by rwa [searchIndex_setPage_ne e _ hp]
          obtain ⟨y, hy, heq⟩ := ih hx' hd'
          exact ⟨y, List.mem_cons_of_mem _ hy, heq⟩
        · exact ih hx' hd

/-- The loop keeps the order of the list. -/
lemma sublist_dirtyLoop (e : Engine) (l : List (ℤ × OrderedEntry)) : (e.dirtyLoop l).Sublist l := by
  induction l generalizing e with
  | nil => exact .slnil
  | cons b l ih =>
      rw [dirtyLoop]
      split_ifs
      · exact (ih _).cons_cons b
      · exact (ih e).cons b

/-- The blocks of a map are in pages of their own. -/
def Separate (m : Map ℤ OrderedEntry) : Prop :=
  ∀ b b' en en', m.lookup b = some en → m.lookup b' = some en' → en.pageId = en'.pageId → b = b'

/-- With one block per page the dirty blocks are those whose page is dirty. -/
lemma Separate.mem_dirtyBlocks {m : Map ℤ OrderedEntry} (hm : Separate m) {b : ℤ}
    {en : OrderedEntry} : (b, en) ∈ e.dirtyBlocks m ↔ m.lookup b = some en ∧
    (e.searchIndex en.pageId).isDirty = true := by
  rw [dirtyBlocks]
  constructor
  · intro h
    obtain ⟨h1, h2⟩ := mem_of_mem_dirtyLoop h
    exact ⟨Map.mem_sorted.mp h1, h2⟩
  · rintro ⟨h1, h2⟩
    obtain ⟨⟨b', en'⟩, hy, hid⟩ := exists_mem_dirtyLoop (Map.mem_sorted.mpr h1) h2
    have h3 := Map.mem_sorted.mp (mem_of_mem_dirtyLoop hy).1
    have hb : b' = b := hm b' b en' en h3 h1 hid
    rw [hb] at hy h3
    rw [h1, Option.some.injEq] at h3
    rwa [h3]

/-- Exact entries put every block in a page of its own. -/
lemma Exact.separate (hX : Exact cfg e tbl) {o : String} {m : Map ℤ OrderedEntry}
    (hm : e.ownerOrderedPagesMapping.lookup o = some m) : Separate m := by
  intro b b' en en' h h' hid
  have h1 := (hX.of_entry o b en (by rw [entry, hm, Option.bind_some, h])).1
  have h2 := (hX.of_entry o b' en' (by rw [entry, hm, Option.bind_some, h'])).1
  rw [hid, h2, Option.some.injEq, Prod.mk.injEq] at h1
  exact h1.2.symm

/-! ### The engine after write-back -/

/-- The pages of a list of blocks marked clean. -/
lemma searchIndex_cleanPages (l : List (ℤ × OrderedEntry)) (e : Engine) (q : ℕ) :
    (e.cleanPages l).searchIndex q
      = if q ∈ l.map (fun b => b.2.pageId) then (e.searchIndex q).setPageAsDirty false
        else e.searchIndex q := by
  rw [cleanPages]
  induction l generalizing e with
  | nil => rfl
  | cons b l ih =>
      rw [List.foldl_cons, ih]
      by_cases hq : q = b.2.pageId
      · subst hq
        rw [searchIndex_setPage_self, List.map_cons, if_pos (List.mem_cons_self)]
        split_ifs <;> rfl
      · rw [searchIndex_setPage_ne e _ hq]
        refine if_congr ?_ rfl rfl
        rw [List.map_cons, List.mem_cons]
        tauto

lemma cleanPages_fields (l : List (ℤ × OrderedEntry)) (e : Engine) :
    (e.cleanPages l).freePages = e.freePages ∧
    (e.cleanPages l).ownerPagesMapping = e.ownerPagesMapping ∧
    (e.cleanPages l).ownerOrderedPagesMapping = e.ownerOrderedPagesMapping ∧
    (e.cleanPages l).ownerFreePagesMapping = e.ownerFreePagesMapping ∧
    (e.cleanPages l).lru = e.lru := by
  rw [cleanPages]
  induction l generalizing e with
  | nil => exact ⟨rfl, rfl, rfl, rfl, rfl⟩
  | cons b l ih => exact ih (e.setPage b.2.pageId _)

/-- Marking the entries of a streak changes no page id and no offsets. -/
lemma markSynced_lookup (s : Streak) (l : List OrderedEntry) (k : ℕ) {m m' : Map ℤ OrderedEntry}
    (h : markSynced s l k m = some m') (b : ℤ) :
    (m'.lookup b).map (fun en => (en.pageId, en.offsets))
      = (m.lookup b).map fun en => (en.pageId, en.offsets) := by
  induction l generalizing k m with
  | nil =>
      rw [markSynced, Option.some.injEq] at h
      rw [h]
  | cons x l ih =>
      rw [markSynced, Option.bind_eq_bind, Option.bind_eq_some_iff] at h
      obtain ⟨en, hen, h⟩ := h
      rw [ih (k + 1) h, Map.lookup_set]
      split_ifs with hb
      · rw [hb, hen]
        rfl
      · rfl

lemma flushStreaks_lookup (fd : Option Fd) (io : SyncIo) (l : List Streak) (k : ℕ)
    {m m' : Map ℤ OrderedEntry} {d d' : Disk}
    (h : e.flushStreaks cfg fd io l k m d = some (m', d')) (b : ℤ) :
    (m'.lookup b).map (fun en => (en.pageId, en.offsets))
      = (m.lookup b).map fun en => (en.pageId, en.offsets) := by
  induction l generalizing k m d with
  | nil =>
      rw [flushStreaks, Option.some.injEq, Prod.mk.injEq] at h
      rw [h.1]
  | cons s l ih =>
      simp only [flushStreaks, Option.bind_eq_bind, Option.bind_eq_some_iff] at h
      obtain ⟨buffers, -, m1, hm1, h⟩ := h
      rw [ih (k + 1) h, markSynced_lookup s _ 0 hm1]

/-- The engine after a write-back of the owner `o`. -/
structure Cleaned (e : Engine) (o : String) (e' : Engine) : Prop where
  searchIndex : ∀ q, e'.searchIndex q = e.searchIndex q ∨
    e'.searchIndex q = (e.searchIndex q).setPageAsDirty false
  freePages : e'.freePages = e.freePages
  ownerPagesMapping : e'.ownerPagesMapping = e.ownerPagesMapping
  ownerFreePagesMapping : e'.ownerFreePagesMapping = e.ownerFreePagesMapping
  lru : e'.lru = e.lru
  ordered_isSome : ∀ o', (e'.ownerOrderedPagesMapping.lookup o').isSome
    = (e.ownerOrderedPagesMapping.lookup o').isSome
  entry : ∀ o' b, (e'.entry o' b).map (fun en => (en.pageId, en.offsets))
    = (e.entry o' b).map fun en => (en.pageId, en.offsets)
  /-- The pages named by the entries of the owner are clean. -/
  clean : ∀ b en, e.entry o b = some en → (e.ownerPagesMapping.lookup o).isSome →
    (e'.searchIndex en.pageId).isDirty = false
  /-- A page that became clean is one named by an entry of the owner. -/
  named : ∀ q, (e'.searchIndex q).isDirty ≠ (e.searchIndex q).isDirty →
    ∃ b en, e.entry o b = some en ∧ en.pageId = q

/-- Inversion of `sync_pages`: nothing but the last `ftruncate` for an owner without pages, the
flush of the streaks of the dirty blocks otherwise. -/
lemma syncPages_cases {d d' : Disk} {o : String} {size : ℕ} {path : Path} {io : SyncIo}
    (h : e.syncPages cfg d o size path io = some (e', d')) :
    (e.ownerPagesMapping.lookup o = none ∧ e' = e ∧
      d' = (d.ftruncate (if io.openOk then d.openWrite path else none) io.ftruncateOk size).2) ∨
    ∃ m m' d1, (e.ownerPagesMapping.lookup o).isSome ∧
      e.ownerOrderedPagesMapping.lookup o = some m ∧
      (e.cleanPages (e.dirtyBlocks m)).flushStreaks cfg
        (if io.openOk then d.openWrite path else none) io (streaks (e.dirtyBlocks m) []) 0 m d
          = some (m', d1) ∧
      e' = { (e.cleanPages (e.dirtyBlocks m)) with
        ownerOrderedPagesMapping := e.ownerOrderedPagesMapping.set o m' } ∧
      d' = (d1.ftruncate (if io.openOk then d.openWrite path else none) io.ftruncateOk size).2 := by
  simp only [Engine.syncPages] at h
  cases hs : e.ownerPagesMapping.lookup o with
  | none =>
      simp only [hs, Option.isSome_none, Bool.false_eq_true, if_false, Option.bind_eq_bind,
        Option.bind_some, Option.some.injEq, Prod.mk.injEq] at h
      exact .inl ⟨rfl, h.1.symm, h.2.symm⟩
  | some s =>
      simp only [hs, Option.isSome_some, if_true, Option.bind_eq_bind, Option.bind_eq_some_iff] at h
      obtain ⟨m, hm, ⟨m', d2⟩, hflush, r, hr, h⟩ := h
      rw [Option.some.injEq] at hr
      subst hr
      rw [Option.some.injEq, Prod.mk.injEq] at h
      obtain ⟨rfl, rfl⟩ := h
      refine .inr ⟨m, m', d2, rfl, hm, hflush, ?_, rfl⟩
      rw [(cleanPages_fields _ e).2.2.1]

/-- What write-back does to the engine. -/
lemma cleaned_of_syncPages {d d' : Disk} {o : String} {size : ℕ} {path : Path} {io : SyncIo}
    (h : e.syncPages cfg d o size path io = some (e', d')) : Cleaned e o e' := by
  rcases syncPages_cases h with ⟨hs, rfl, -⟩ | ⟨m, m', d1, -, hm, hflush, rfl, -⟩
  · exact ⟨fun _ => .inl rfl, rfl, rfl, rfl, rfl, fun _ => rfl, fun _ _ => rfl,
      fun _ _ _ hs' => absurd hs' (by simp [hs]), fun _ hq => absurd rfl hq⟩
  · obtain ⟨h1, h2, h3, h4, h5⟩ := cleanPages_fields (e.dirtyBlocks m) e
    have hidx := searchIndex_cleanPages (e.dirtyBlocks m) e
    have hentry : ∀ b, e.entry o b = m.lookup b := fun b => by rw [entry, hm, Option.bind_some]
    refine ⟨fun q => ?_, h1, h2, h4, h5, fun o' => ?_, fun o' b => ?_, fun b en hen _ => ?_,
      fun q hq => ?_⟩
    · show (e.cleanPages (e.dirtyBlocks m)).searchIndex q = _ ∨ _
      rw [hidx]
      split_ifs
      · exact .inr rfl
      · exact .inl rfl
    · rw [Map.lookup_set]
      split_ifs with ho
      · rw [ho, hm]
        rfl
      · rfl
    · rw [entry, entry_set]
      by_cases ho : o' = o
      · rw [if_pos ho, flushStreaks_lookup _ _ _ _ hflush, ho, entry, hm, Option.bind_some]
      · rw [if_neg ho]
    · -- the pages of the owner are clean
      show ((e.cleanPages (e.dirtyBlocks m)).searchIndex en.pageId).isDirty = false
      rw [hidx]
      split_ifs with hc
      · rfl
      · by_contra hd
        rw [Bool.not_eq_false] at hd
        rw [hentry] at hen
        obtain ⟨y, hy, hid⟩ := exists_mem_dirtyLoop (Map.mem_sorted.mpr hen) hd
        exact hc (List.mem_map.mpr ⟨y, hy, hid⟩)
    · -- a page that changed is named by one of its entries
      have hq' : ((e.cleanPages (e.dirtyBlocks m)).searchIndex q).isDirty
          ≠ (e.searchIndex q).isDirty := hq
      rw [hidx] at hq'
      split_ifs at hq' with hc
      · obtain ⟨⟨b, en⟩, hb, heq⟩ := List.mem_map.mp hc
        exact ⟨b, en, (hentry b).trans (Map.mem_sorted.mp (mem_of_mem_dirtyLoop hb).1), heq⟩
      · exact absurd rfl hq'

namespace Cleaned

variable {o : String}

lemma data (hC : Cleaned e o e') (q : ℕ) : (e'.searchIndex q).data = (e.searchIndex q).data := by
  rcases hC.searchIndex q with h | h <;> rw [h]
  rfl

lemma allocatedBlockIds (hC : Cleaned e o e') (q : ℕ) :
    (e'.searchIndex q).allocatedBlockIds = (e.searchIndex q).allocatedBlockIds := by
  rcases hC.searchIndex q with h | h <;> rw [h]
  rfl

lemma rep (hC : Cleaned e o e') (hR : Rep cfg e tbl none) : Rep cfg e' tbl none where
  used := fun q o' b hq => by
    obtain ⟨h1, h2, h3⟩ := hR.used q o' b hq
    refine ⟨h1, h2, ?_⟩
    rcases hC.searchIndex q with h | h <;> rw [h]
    · exact h3
    · exact h3.setPageAsDirty false
  free := fun q hlt hq hh => by
    have h1 := hR.free q hlt hq hh
    rcases hC.searchIndex q with h | h <;> rw [h]
    · exact h1
    · exact ⟨⟨rfl, h1.slots, h1.zero, h1.blocks⟩, h1.owner⟩
  inHand := hR.inHand
  mem_free := hC.freePages ▸ hR.mem_free
  nodup := hC.freePages ▸ hR.nodup
  owned := hC.ownerPagesMapping ▸ hR.owned
  known := hC.ownerPagesMapping ▸ hR.known
  no_none := hC.ownerPagesMapping ▸ hR.no_none
  ordered_isSome := fun o' => by rw [hC.ordered_isSome, hR.ordered_isSome, hC.ownerPagesMapping]
  rooms := fun o' => by rw [hC.ownerFreePagesMapping, hR.rooms, hC.ownerPagesMapping]

lemma exact (hC : Cleaned e o e') (hX : Exact cfg e tbl) : Exact cfg e' tbl := by
  refine ⟨fun o' b ent he => ?_, fun q o' b hq => ?_⟩
  · have h1 := hC.entry o' b
    rw [he, Option.map_some, eq_comm, Option.map_eq_some_iff] at h1
    obtain ⟨ent', he', heq⟩ := h1
    rw [Prod.mk.injEq] at heq
    obtain ⟨h2, h3⟩ := hX.of_entry o' b ent' he'
    exact ⟨heq.1 ▸ h2, heq.2 ▸ h3⟩
  · obtain ⟨ent, he, hid⟩ := hX.entry_of q o' b hq
    have h1 := hC.entry o' b
    rw [he, Option.map_some, Option.map_eq_some_iff] at h1
    obtain ⟨ent', he', heq⟩ := h1
    rw [Prod.mk.injEq] at heq
    exact ⟨ent', he', heq.1.trans hid⟩

end Cleaned

/-! ### Write-back throws nothing -/

/-- The first block id of a streak. -/
def Streak.start (s : Streak) : ℤ := s.currentBlockId - s.pageChunk.length + 1

variable (cfg) in
lemma iov_isSome (s : Streak) (l : List OrderedEntry) (k : ℕ)
    (h : ∀ b en, (b, en) ∈ numbered (s.start + k) l →
      ((e.searchIndex en.pageId).allocatedBlockIds.getReadableTo b).isSome) :
    (e.iov cfg s l k).isSome := by
  induction l generalizing k with
  | nil => rfl
  | cons en l ih =>
      have h1 := ih (k + 1) fun b en' hb => h b en' (by
        rw [numbered, List.mem_cons]
        refine .inr ?_
        have h2 : s.start + ((k + 1 : ℕ) : ℤ) = s.start + k + 1 := by push_cast; ring
        rwa [h2] at hb)
      have h2 := h (s.start + k) en (by rw [numbered]; exact List.mem_cons_self)
      obtain ⟨more, hmore⟩ := Option.isSome_iff_exists.mp h1
      obtain ⟨r, hr⟩ := Option.isSome_iff_exists.mp h2
      have hblk : s.currentBlockId - s.pageChunk.length + k + 1 = s.start + k := by
        rw [Streak.start]
        ring
      simp only [iov, iovBytes, Option.bind_eq_bind, hmore, hblk, hr, Option.map_some]
      split_ifs <;> rfl

lemma markSynced_isSome (s : Streak) (l : List OrderedEntry) (k : ℕ) (m : Map ℤ OrderedEntry)
    (h : ∀ b en, (b, en) ∈ numbered (s.start + k) l → (m.lookup b).isSome) :
    (markSynced s l k m).isSome := by
  induction l generalizing k m with
  | nil => rfl
  | cons en l ih =>
      have h2 := h (s.start + k) en (by rw [numbered]; exact List.mem_cons_self)
      obtain ⟨x, hx⟩ := Option.isSome_iff_exists.mp h2
      have hblk : s.currentBlockId - s.pageChunk.length + k + 1 = s.start + k := by
        rw [Streak.start]
        ring
      rw [markSynced, hblk, Option.bind_eq_bind, hx, Option.bind_some]
      refine ih (k + 1) _ fun b en' hb => ?_
      rw [Map.lookup_set]
      split_ifs
      · rfl
      · refine h b en' ?_
        rw [numbered, List.mem_cons]
        refine .inr ?_
        have h3 : s.start + ((k + 1 : ℕ) : ℤ) = s.start + k + 1 := by push_cast; ring
        rwa [h3] at hb

variable (cfg) in
lemma flushStreaks_isSome (fd : Option Fd) (io : SyncIo) (l : List Streak) (k : ℕ)
    (m : Map ℤ OrderedEntry) (d : Disk)
    (h : ∀ s ∈ l, ∀ b en, (b, en) ∈ s.blocks → (m.lookup b).isSome ∧
      ((e.searchIndex en.pageId).allocatedBlockIds.getReadableTo b).isSome) :
    (e.flushStreaks cfg fd io l k m d).isSome := by
  induction l generalizing k m d with
  | nil => rfl
  | cons s l ih =>
      have hstart : s.start + ((0 : ℕ) : ℤ) = s.start := by simp
      have h1 := iov_isSome cfg (e := e) s s.pageChunk 0 (fun b en hb =>
        (h s List.mem_cons_self b en (by rwa [hstart] at hb)).2)
      have h2 := markSynced_isSome s s.pageChunk 0 m (fun b en hb =>
        (h s List.mem_cons_self b en (by rwa [hstart] at hb)).1)
      obtain ⟨buffers, hb⟩ := Option.isSome_iff_exists.mp h1
      obtain ⟨m1, hm1⟩ := Option.isSome_iff_exists.mp h2
      simp only [flushStreaks, Option.bind_eq_bind, hb, hm1, Option.bind_some]
      refine ih (k + 1) m1 _ fun s' hs' b en hb' => ?_
      obtain ⟨h3, h4⟩ := h s' (List.mem_cons_of_mem _ hs') b en hb'
      refine ⟨?_, h4⟩
      have h5 := congrArg Option.isSome (markSynced_lookup s _ 0 hm1 b)
      rw [Option.isSome_map, Option.isSome_map] at h5
      rw [h5, h3]

/-- With exact entries write-back does not throw. -/
theorem Rep.syncPages_isSome (hR : Rep cfg e tbl none) (hX : Exact cfg e tbl)
    (d : Disk) (o : String) (size : ℕ) (path : Path) (io : SyncIo) :
    (e.syncPages cfg d o size path io).isSome := by
  simp only [Engine.syncPages]
  cases hs : e.ownerPagesMapping.lookup o with
  | none => rfl
  | some s =>
      obtain ⟨m, hm⟩ := Option.isSome_iff_exists.mp ((hR.ordered_isSome o).trans (by rw [hs]; rfl))
      have hflush := flushStreaks_isSome cfg (e := e.cleanPages (e.dirtyBlocks m))
        (if io.openOk then d.openWrite path else none) io (streaks (e.dirtyBlocks m) []) 0 m d
        (fun s' hs' b en hb => by
          have hmem : (b, en) ∈ e.dirtyBlocks m := by
            rw [← flatMap_blocks_streaks (e.dirtyBlocks m)]
            exact List.mem_flatMap.mpr ⟨s', hs', hb⟩
          rw [(hX.separate hm).mem_dirtyBlocks] at hmem
          refine ⟨by rw [hmem.1]; rfl, ?_⟩
          have he : e.entry o b = some en := by rw [entry, hm, Option.bind_some, hmem.1]
          have hu := hR.usedPage (hX.of_entry o b en he).1
          rw [searchIndex_cleanPages]
          split_ifs
          · exact hu.readable
          · exact hu.readable)
      obtain ⟨r, hr⟩ := Option.isSome_iff_exists.mp hflush
      simp only [Option.isSome_some, if_true, Option.bind_eq_bind, hm, Option.bind_some, hr]

end Engine

end LazyFS
