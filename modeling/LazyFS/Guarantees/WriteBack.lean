import LazyFS.Rep.Marks

/-!
**Batched write-back**: the `pwritev` calls of `sync_pages`.

* `PwritevCall`, `Engine.pwritevCalls`: the calls for a list of streaks; `flushStreaks_calls`: these
  are the calls that the flush makes, in order.
* `Engine.Carries`: a call carries a run of consecutive blocks, each to its place in the file.
* `carries_of_streaks`: so does every call of the streak loop.
* `syncPages_batched`: the calls of `sync_pages` visit the dirty blocks once each in ascending
  order, and exactly these are cleaned and marked.
-/

namespace LazyFS

/-- One `pwritev`: the file offset and the buffers, in order. -/
structure PwritevCall where
  offset : ℤ
  iov : List (List UInt8)

/-- The disk after some calls; `io k` is how the `k`-th one ends. -/
def PwritevCall.perform (fd : Option Fd) (io : ℕ → Fate) : List PwritevCall → ℕ → Disk → Disk
  | [], _, d => d
  | c :: calls, k, d => perform fd io calls (k + 1) (d.pwrite fd (io k) c.iov.flatten c.offset).2

namespace Engine

variable {cfg : Config} {e e' : Engine} {d d' : Disk}

/-- The calls for some streaks. -/
def pwritevCalls (cfg : Config) (e : Engine) : List Streak → Option (List PwritevCall)
  | [] => some []
  | s :: rest => do
      let buffers ← e.iov cfg s s.pageChunk 0
      let calls ← pwritevCalls cfg e rest
      some (⟨s.offset cfg, buffers⟩ :: calls)

/-- The flush makes the calls for its streaks, in order. -/
lemma flushStreaks_calls (fd : Option Fd) (io : SyncIo) (l : List Streak) (k : ℕ)
    {m m' : Map ℤ OrderedEntry} (h : e.flushStreaks cfg fd io l k m d = some (m', d')) :
    ∃ calls, e.pwritevCalls cfg l = some calls ∧
    d' = PwritevCall.perform fd io.pwritev calls k d := by
  induction l generalizing k m d with
  | nil =>
      cases h
      exact ⟨[], rfl, rfl⟩
  | cons s l ih =>
      simp only [flushStreaks, Option.bind_eq_bind, Option.bind_eq_some_iff] at h
      obtain ⟨buffers, hbuf, m1, -, h⟩ := h
      obtain ⟨calls, hcalls, hd⟩ := ih (k + 1) h
      refine ⟨⟨s.offset cfg, buffers⟩ :: calls, ?_, hd⟩
      simp only [pwritevCalls, hbuf, hcalls, Option.bind_eq_bind, Option.bind_some]

/-! ### The buffers of a call -/

/-- The call `c` carries the blocks of `g`: a run of at most `IOV_MAX` consecutive ids, from the
place of the first one on, and each buffer lands at the place of its block. -/
structure Carries (cfg : Config) (e : Engine) (g : List (ℤ × OrderedEntry))
    (c : PwritevCall) : Prop where
  pos : 1 ≤ g.length
  le : g.length ≤ iovMax
  consecutive : ∀ j (h : j < g.length), (g.get ⟨j, h⟩).1 = (g.get ⟨0, pos⟩).1 + j
  offset : c.offset = (g.get ⟨0, pos⟩).1 * cfg.ioBlockSize
  length : c.iov.length = g.length
  /-- The bytes before a buffer end where its block starts. -/
  placed : ∀ j (h : j < g.length),
    c.offset + (((c.iov.take j).map List.length).sum : ℕ) = (g.get ⟨j, h⟩).1 * cfg.ioBlockSize
  /-- A buffer is the slot of its block: all of it, or up to the readable end for the last one. -/
  buffer : ∀ j (h : j < g.length) (h' : j < c.iov.length), ∃ n : ℕ,
    c.iov.get ⟨j, h'⟩ = (e.searchIndex (g.get ⟨j, h⟩).2.pageId).data.read
      (g.get ⟨j, h⟩).2.offsets.1 n ∧
    (j + 1 < g.length → n = cfg.ioBlockSize) ∧
    (j + 1 = g.length → ∃ r, (e.searchIndex (g.get ⟨j, h⟩).2.pageId).allocatedBlockIds.getReadableTo
      (g.get ⟨j, h⟩).1 = some r ∧ n = (r + 1).toNat)

/-- The buffers of a streak from the `k`-th on. -/
lemma iov_spec (s : Streak) (l : List OrderedEntry) (k : ℕ)
    (hlen : k + l.length = s.pageChunk.length) {buffers : List (List UInt8)}
    (h : e.iov cfg s l k = some buffers) :
    buffers.length = l.length ∧
      ∀ j (hj : j < l.length) (hj' : j < buffers.length), ∃ n : ℕ,
        buffers.get ⟨j, hj'⟩ = (e.searchIndex (l.get ⟨j, hj⟩).pageId).data.read
          (l.get ⟨j, hj⟩).offsets.1 n ∧
        (j + 1 < l.length → n = cfg.ioBlockSize) ∧
        (j + 1 = l.length → ∃ r,
          (e.searchIndex (l.get ⟨j, hj⟩).pageId).allocatedBlockIds.getReadableTo
          (s.start + k + j) = some r ∧ n = (r + 1).toNat) := by
  induction l generalizing k buffers with
  | nil =>
      cases h
      exact ⟨rfl, fun j hj => absurd hj (Nat.not_lt_zero j)⟩
  | cons en l ih =>
      simp only [iov, Option.bind_eq_bind, Option.bind_eq_some_iff] at h
      obtain ⟨bytes, hbytes, more, hmore, h⟩ := h
      cases h
      rw [List.length_cons] at hlen
      obtain ⟨hl, hall⟩ := ih (k + 1) (by omega) hmore
      refine ⟨by rw [List.length_cons, hl, List.length_cons], fun j hj hj' => ?_⟩
      cases j with
      | zero =>
          have hblk : s.currentBlockId - s.pageChunk.length + k + 1 = s.start + k := by
            rw [Streak.start]
            ring
          simp only [iovBytes, hblk, Option.bind_eq_bind] at hbytes
          simp only [List.length_cons]
          split_ifs at hbytes with hlast
          · -- the last block stops at its readable end
            obtain ⟨len, hlen', hread⟩ := Option.bind_eq_some_iff.mp hbytes
            obtain ⟨r, hr, rfl⟩ := Option.map_eq_some_iff.mp hlen'
            exact ⟨(r + 1).toNat, (Option.some.inj hread).symm, fun hlt => absurd hlt (by omega),
              fun _ => ⟨r, by simpa using hr, rfl⟩⟩
          · rw [Option.bind_some, Option.some.injEq, Int.toNat_natCast] at hbytes
            exact ⟨cfg.ioBlockSize, hbytes.symm, fun _ => rfl, fun heq => absurd heq (by omega)⟩
      | succ j =>
          rw [List.length_cons] at hj hj'
          obtain ⟨n, h1, h2, h3⟩ := hall j (by omega) (by omega)
          refine ⟨n, h1, fun hlt => h2 (by rw [List.length_cons] at hlt; omega), fun heq => ?_⟩
          obtain ⟨r, hr, hn⟩ := h3 (by rw [List.length_cons] at heq; omega)
          refine ⟨r, ?_, hn⟩
          have hcast : s.start + ((k + 1 : ℕ) : ℤ) + j = s.start + k + ((j + 1 : ℕ) : ℤ) := by
            push_cast
            ring
          rw [← hcast]
          exact hr

/-- The `j`-th of some numbered elements. -/
lemma get_numbered {α : Type} (n : ℤ) (l : List α) (j : ℕ) (h : j < (numbered n l).length)
    (h' : j < l.length) : (numbered n l).get ⟨j, h⟩ = (n + j, l.get ⟨j, h'⟩) := by
  induction l generalizing n j with
  | nil => exact absurd h' (Nat.not_lt_zero j)
  | cons a l ih =>
      cases j with
      | zero => simp [numbered]
      | succ j =>
          rw [List.length_cons] at h'
          have hl : (numbered (n + 1) l).length = l.length := by
            rw [← List.length_map Prod.snd, map_snd_numbered]
          have h1 := ih (n + 1) j (by omega) (by omega)
          have hcast : n + 1 + (j : ℤ) = n + ((j + 1 : ℕ) : ℤ) := by
            push_cast
            ring
          rw [hcast] at h1
          exact h1

/-- No streak is longer than `IOV_MAX`. -/
lemma length_pageChunk_le (l : List (ℤ × OrderedEntry)) (chunk : List OrderedEntry)
    (hchunk : chunk.length < iovMax) {s : Streak} (hs : s ∈ streaks l chunk) :
    s.pageChunk.length ≤ iovMax := by
  induction l generalizing chunk with
  | nil => cases hs
  | cons x rest ih =>
      have hpush : (chunk ++ [x.2]).length ≤ iovMax := by
        rw [List.length_append, List.length_singleton]
        exact hchunk
      cases rest with
      | nil =>
          rw [streaks, List.mem_singleton] at hs
          rw [hs]
          exact hpush
      | cons next rest =>
          rw [streaks] at hs
          split_ifs at hs with hc
          · refine ih _ ?_ hs
            rw [List.length_append, List.length_singleton]
            have := hc.1
            omega
          · rcases List.mem_cons.mp hs with rfl | hs
            · exact hpush
            · exact ih [] (by decide) hs

/-- **The call of a streak** carries its blocks. -/
lemma carries_of_iov (s : Streak) (hne : s.pageChunk ≠ []) (hle : s.pageChunk.length ≤ iovMax)
    {buffers : List (List UInt8)} (h : e.iov cfg s s.pageChunk 0 = some buffers) :
    Carries cfg e s.blocks ⟨s.offset cfg, buffers⟩ := by
  obtain ⟨hlen, hspec⟩ := iov_spec s s.pageChunk 0 (Nat.zero_add _) h
  have hblocks : s.blocks.length = s.pageChunk.length := by
    rw [← List.length_map Prod.snd, Streak.blocks, map_snd_numbered]
  have hget : ∀ j (hj : j < s.blocks.length), s.blocks.get ⟨j, hj⟩
      = (s.start + j, s.pageChunk.get ⟨j, hblocks ▸ hj⟩) := fun j hj =>
    get_numbered s.start s.pageChunk j hj (hblocks ▸ hj)
  have hpos : 1 ≤ s.blocks.length := by
    rw [hblocks]
    exact List.length_pos_iff.mpr hne
  refine ⟨hpos, hblocks ▸ hle, fun j hj => ?_, ?_, hlen.trans hblocks.symm, fun j hj => ?_,
    fun j hj hj' => ?_⟩
  · rw [hget j hj, hget 0 hpos]
    simp
  · rw [hget 0 hpos, Streak.offset, Streak.start]
    simp
  · -- every buffer before the `j`-th is a whole block
    have hsum : ((buffers.take j).map List.length).sum = j * cfg.ioBlockSize := by
      have hall : ∀ x ∈ (buffers.take j).map List.length, x = cfg.ioBlockSize := by
        intro x hx
        obtain ⟨b, hb, rfl⟩ := List.mem_map.mp hx
        obtain ⟨i, hi, rfl⟩ := List.mem_iff_get.mp hb
        have hi' : (i : ℕ) < j := lt_of_lt_of_le i.isLt (List.length_take_le j buffers)
        obtain ⟨n, hn, hfull, -⟩ := hspec i (by omega) (by omega)
        have hget' : (buffers.take j).get i = buffers.get ⟨i, by omega⟩ := by simp
        rw [hget', hn, Mem.length_read, hfull (by omega)]
      rw [List.eq_replicate_of_mem hall, List.sum_replicate, List.length_map, List.length_take,
        Nat.min_eq_left (by omega), smul_eq_mul]
    rw [hsum, hget j hj, Streak.offset, Streak.start]
    push_cast
    ring
  · obtain ⟨n, h1, h2, h3⟩ := hspec j (hblocks ▸ hj) hj'
    rw [hget j hj]
    refine ⟨n, h1, fun hlt => h2 (by omega), fun heq => ?_⟩
    obtain ⟨r, hr, hn⟩ := h3 (by omega)
    exact ⟨r, by simpa using hr, hn⟩

/-- The pages that write-back cleans keep their bytes and their readable ends. -/
lemma Carries.of_cleanPages {l g : List (ℤ × OrderedEntry)} {c : PwritevCall}
    (h : Carries cfg (e.cleanPages l) g c) : Carries cfg e g c := by
  have hdata : ∀ q, ((e.cleanPages l).searchIndex q).data = (e.searchIndex q).data ∧
      ((e.cleanPages l).searchIndex q).allocatedBlockIds = (e.searchIndex q).allocatedBlockIds := by
    intro q
    rw [searchIndex_cleanPages]
    split_ifs
    · exact ⟨rfl, rfl⟩
    · exact ⟨rfl, rfl⟩
  refine ⟨h.pos, h.le, h.consecutive, h.offset, h.length, h.placed, fun j hj hj' => ?_⟩
  obtain ⟨n, h1, h2, h3⟩ := h.buffer j hj hj'
  rw [(hdata _).1] at h1
  rw [(hdata _).2] at h3
  exact ⟨n, h1, h2, h3⟩

/-- **The calls of the streak loop**, one for every streak. -/
theorem carries_of_streaks {l : List Streak}
    (hl : ∀ s ∈ l, s.pageChunk ≠ [] ∧ s.pageChunk.length ≤ iovMax) {calls : List PwritevCall}
    (h : e.pwritevCalls cfg l = some calls) :
    List.Forall₂ (Carries cfg e) (l.map Streak.blocks) calls := by
  induction l generalizing calls with
  | nil =>
      cases h
      exact .nil
  | cons s l ih =>
      simp only [pwritevCalls, Option.bind_eq_bind, Option.bind_eq_some_iff] at h
      obtain ⟨buffers, hbuf, more, hmore, h⟩ := h
      cases h
      obtain ⟨hne, hle⟩ := hl s List.mem_cons_self
      exact .cons (carries_of_iov s hne hle hbuf)
        (ih (fun s' hs' => hl s' (List.mem_cons_of_mem _ hs')) hmore)

/-! ### The whole write-back -/

/-- What write-back makes of the engine and the disk, for the owner `o` with the ordered map `m`:
the calls for the blocks `groups`, and the marks. -/
structure Batched (cfg : Config) (e : Engine) (d : Disk) (o : String)
    (m : Map ℤ OrderedEntry) (size : ℕ) (fd : Option Fd) (io : SyncIo)
    (groups : List (List (ℤ × OrderedEntry))) (calls : List PwritevCall) (e' : Engine)
    (d' : Disk) : Prop where
  /-- The calls were made in this order, and the file was cut to its size. -/
  disk : d' = ((PwritevCall.perform fd io.pwritev calls 0 d).ftruncate fd io.ftruncateOk size).2
  carries : List.Forall₂ (Carries cfg e) groups calls
  ascending : groups.flatten.Pairwise fun a b => a.1 < b.1
  dirty : ∀ b en, (b, en) ∈ groups.flatten ↔
    m.lookup b = some en ∧ (e.searchIndex en.pageId).isDirty = true
  /-- The pages of the visited blocks are clean, and no other page changed. -/
  pages : ∀ q, e'.searchIndex q = if q ∈ groups.flatten.map (fun b => b.2.pageId)
    then (e.searchIndex q).setPageAsDirty false else e.searchIndex q
  /-- The visited blocks are marked, and no other entry changed. -/
  marks : ∀ o' b, e'.entry o' b = if o' = o ∧ b ∈ groups.flatten.map Prod.fst
    then (m.lookup b).map (fun en => { en with isSynced := true }) else e.entry o' b

/-- Marking the visited blocks of a map changes nothing else in it. -/
lemma flushStreaks_marked (fd : Option Fd) (io : SyncIo) {l : List Streak}
    {m m' : Map ℤ OrderedEntry} (h : e.flushStreaks cfg fd io l 0 m d = some (m', d')) (b : ℤ) :
    m'.lookup b = if b ∈ (l.flatMap Streak.blocks).map Prod.fst
      then (m.lookup b).map (fun en => { en with isSynced := true }) else m.lookup b := by
  have hmark := flushStreaks_isSynced fd io l 0 h b
  have hrest := flushStreaks_lookup fd io l 0 h b
  cases hm' : m'.lookup b with
  | none =>
      rw [hm', Option.map_none, eq_comm, Option.map_eq_none_iff] at hrest
      rw [hrest]
      split_ifs <;> rfl
  | some en' =>
      rw [hm', Option.map_some, eq_comm, Option.map_eq_some_iff] at hrest
      obtain ⟨en, hen, heq⟩ := hrest
      rw [Prod.mk.injEq] at heq
      rw [hm', hen, Option.map_some, Option.map_some] at hmark
      rw [hen, Option.map_some]
      obtain ⟨p', offs', sync'⟩ := en'
      obtain ⟨p, offs, sync⟩ := en
      obtain ⟨rfl, rfl⟩ := heq
      split_ifs at hmark ⊢
      · have hsync : sync' = true := Option.some.inj hmark
        rw [hsync]
      · have hsync : sync' = sync := Option.some.inj hmark
        rw [hsync]

/-- **Batched write-back covers the dirty set exactly**: `sync_pages` sends the dirty blocks of the
owner, run by run, and cleans and marks exactly these, with one block per page; it throws nothing
when every dirty block is in its page. -/
theorem syncPages_batched {o : String} {m : Map ℤ OrderedEntry}
    (hs : (e.ownerPagesMapping.lookup o).isSome) (hm : e.ownerOrderedPagesMapping.lookup o = some m)
    (hone : Separate m) (d : Disk) (size : ℕ) (path : Path) (io : SyncIo) :
    (∀ e' d', e.syncPages cfg d o size path io = some (e', d') → ∃ groups calls,
      Batched cfg e d o m size (if io.openOk then d.openWrite path else none)
        io groups calls e' d') ∧
    ((∀ b en, m.lookup b = some en → (e.searchIndex en.pageId).isDirty = true →
      ((e.searchIndex en.pageId).allocatedBlockIds.getReadableTo b).isSome) →
      (e.syncPages cfg d o size path io).isSome) := by
  constructor
  · intro e' d' h
    -- every streak is one `pwritev` call
    rcases syncPages_cases h with ⟨hs', -, -⟩ | ⟨m', m2, d1, -, hm', hflush, rfl, rfl⟩
    · rw [hs'] at hs
      cases hs
    · rw [hm, Option.some.injEq] at hm'
      subst hm'
      obtain ⟨calls, hcalls, hd1⟩ := flushStreaks_calls _ io _ 0 hflush
      have hflat : ((streaks (e.dirtyBlocks m) []).map Streak.blocks).flatten
          = e.dirtyBlocks m := by
        rw [← List.flatMap_def, flatMap_blocks_streaks]
      have hcarries := carries_of_streaks (fun s hs => ⟨pageChunk_ne_nil _ [] hs,
        length_pageChunk_le _ [] (by decide) hs⟩) hcalls
      -- together the streaks are the dirty blocks in their order
      refine ⟨_, calls, by rw [hd1], hcarries.imp fun _ _ => Carries.of_cleanPages, ?_, ?_, ?_, ?_⟩
      · rw [hflat]
        exact (Map.sorted_lt m).sublist (sublist_dirtyLoop e m.sorted)
      · rw [hflat]
        exact fun b en => hone.mem_dirtyBlocks
      · rw [hflat]
        exact searchIndex_cleanPages (e.dirtyBlocks m) e
      · intro o' b
        rw [hflat, entry, entry_set]
        have hmarked := flushStreaks_marked _ io hflush b
        rw [flatMap_blocks_streaks] at hmarked
        by_cases ho : o' = o
        · rw [if_pos ho, hmarked, ho, entry, hm, Option.bind_some]
          refine if_congr ?_ rfl rfl
          rw [eq_self_iff_true, true_and]
        · rw [if_neg ho, if_neg fun hc => ho hc.1]
  · -- every page of a dirty block is readable, so no call throws
    intro hread
    obtain ⟨s, hs'⟩ := Option.isSome_iff_exists.mp hs
    have hflush := flushStreaks_isSome cfg (e := e.cleanPages (e.dirtyBlocks m))
      (if io.openOk then d.openWrite path else none) io (streaks (e.dirtyBlocks m) []) 0 m d
      (fun s' hs' b en hb => by
        have hb' : (b, en) ∈ e.dirtyBlocks m := by
          rw [← flatMap_blocks_streaks (e.dirtyBlocks m)]
          exact List.mem_flatMap.mpr ⟨s', hs', hb⟩
        obtain ⟨h1, h2⟩ := hone.mem_dirtyBlocks.mp hb'
        refine ⟨by rw [h1]; rfl, ?_⟩
        rw [searchIndex_cleanPages]
        split_ifs
        · exact hread b en h1 h2
        · exact hread b en h1 h2)
    obtain ⟨⟨m', d1⟩, hflush⟩ := Option.isSome_iff_exists.mp hflush
    simp only [Engine.syncPages, hs', hm, Option.isSome_some, if_true, Option.bind_eq_bind,
      Option.bind_some, hflush]

/-- Three dirty blocks, with a gap after the second. -/
def gappy : Engine :=
  ((Cache.new (.tiny 3 false)).putDataBlocks (.tiny 3 false) Disk.empty "7"
    (((Map.single 0 ⟨fun _ => 1, 4, 0, 3⟩).set 1 ⟨fun _ => 2, 4, 0, 3⟩).set 3 ⟨fun _ => 3, 2, 0, 1⟩)
    .opWrite).elim (Engine.new (.tiny 3 false)) fun r => r.1.engine

/-- The write-back of three dirty blocks. -/
theorem syncPages_batched_gappy : ∃ m e' d' groups calls,
    gappy.ownerOrderedPagesMapping.lookup "7" = some m ∧
    (gappy.dirtyBlocks m).map Prod.fst = [0, 1, 3] ∧
    gappy.syncPages (.tiny 3 false) Disk.empty "7" 14 ["a"] {} = some (e', d') ∧
    Batched (.tiny 3 false) gappy Disk.empty "7" m 14 (Disk.empty.openWrite ["a"])
    {} groups calls e' d' := by
  have hm : ((gappy.ownerOrderedPagesMapping.lookup "7").map fun m =>
      ((gappy.dirtyBlocks m).map Prod.fst, m.sorted.map fun b => (b.1, b.2.pageId)))
        = some ([0, 1, 3], [(0, 2), (1, 1), (3, 0)]) := by decide +kernel
  have hsome : (gappy.syncPages (.tiny 3 false) Disk.empty "7" 14 ["a"] {}).isSome := by
    decide +kernel
  obtain ⟨m, hm, heq⟩ := Option.map_eq_some_iff.mp hm
  obtain ⟨hdirty, hpages⟩ := Prod.mk.inj heq
  have hmem : ∀ b en, m.lookup b = some en → (b, en.pageId) ∈ [((0 : ℤ), 2), (1, 1), (3, 0)] := by
    intro b en hen
    rw [← hpages]
    exact List.mem_map.mpr ⟨(b, en), Map.mem_sorted.mpr hen, rfl⟩
  have hone : Separate m := by
    intro b b' en en' h h' hid
    have h1 := hmem b en h
    have h2 := hmem b' en' h'
    simp only [List.mem_cons, Prod.mk.injEq, List.not_mem_nil, or_false] at h1 h2
    omega
  obtain ⟨⟨e', d'⟩, h⟩ := Option.isSome_iff_exists.mp hsome
  obtain ⟨groups, calls, hB⟩ := (syncPages_batched (by decide +kernel) hm hone
    Disk.empty 14 ["a"] {}).1 e' d' h
  exact ⟨m, e', d', groups, calls, hm, hdirty, h, hB⟩

end Engine

end LazyFS
