import LazyFS.Rep.Sync

/-!
The backing file after a write-back.

* `iov_flatten`: the buffers of a streak, one after the other, are whole blocks, the last one cut at
  its readable end.
* `Engine.Flushed`: a list of blocks may have been written: no other position changes, and no
  position past the readable end of a block comes into being.  `Engine.Durable`: they were written.
* `flushStreaks_flushed`, `flushStreaks_durable`: the flush of all streaks, whatever becomes of the
  calls, and when all of them succeed in full.
-/

namespace LazyFS

namespace Engine

variable {cfg : Config} {e : Engine}

/-- The blocks of a list are in the only slot of their pages, readable to their last byte at
most. -/
def Slotted (cfg : Config) (e : Engine) (l : List (ℤ × OrderedEntry)) : Prop :=
  ∀ b en, (b, en) ∈ l → en.offsets = slot cfg ∧ ∃ r : ℕ, r < cfg.ioBlockSize ∧
    (e.searchIndex en.pageId).allocatedBlockIds.getReadableTo b = some (r : ℤ)

lemma Slotted.mono {l l' : List (ℤ × OrderedEntry)} (h : Slotted cfg e l) (hl : ∀ x ∈ l', x ∈ l) :
    Slotted cfg e l' := fun b en hb => h b en (hl _ hb)

/-! ### The buffers of a streak -/

lemma mem_numbered {α : Type} {n b : ℤ} {a : α} {l : List α} :
    (b, a) ∈ numbered n l ↔ ∃ k : ℕ, b = n + k ∧ l[k]? = some a := by
  induction l generalizing n with
  | nil => simp [numbered]
  | cons x l ih =>
      rw [numbered, List.mem_cons, ih]
      constructor
      · rintro (h | ⟨k, rfl, hk⟩)
        · obtain ⟨rfl, rfl⟩ := Prod.mk.inj h
          exact ⟨0, by simp, rfl⟩
        · exact ⟨k + 1, by push_cast; ring, hk⟩
      · rintro ⟨k, rfl, hk⟩
        cases k with
        | zero =>
            rw [List.getElem?_cons_zero, Option.some.injEq] at hk
            exact .inl (by rw [hk]; simp)
        | succ k => exact .inr ⟨k, by push_cast; ring, hk⟩

/-- The bytes of one buffer. -/
lemma iovBytes_eq {s : Streak} {k : ℕ} {en : OrderedEntry} (hoff : en.offsets = slot cfg) {r : ℕ}
    (hr : (e.searchIndex en.pageId).allocatedBlockIds.getReadableTo (s.start + k) = some (r : ℤ)) :
    e.iovBytes cfg s k en = some ((e.searchIndex en.pageId).data.read 0
      (if k + 1 = s.pageChunk.length then r + 1 else cfg.ioBlockSize)) := by
  have hblk : s.currentBlockId - s.pageChunk.length + k + 1 = s.start + k := by
    rw [Streak.start]
    ring
  have hslot : (slot cfg).1 = 0 := rfl
  have htoNat : ((r : ℤ) + 1).toNat = r + 1 := by omega
  simp only [iovBytes, hblk, hr, hoff, hslot, Option.bind_eq_bind, Option.map_some]
  split_ifs
  · rw [Option.bind_some, htoNat]
  · rw [Option.bind_some, Int.toNat_natCast]

/-- **The buffers of a streak**, one after the other. -/
lemma iov_flatten (s : Streak) (l : List OrderedEntry) :
    ∀ (k : ℕ) (buffers : List (List UInt8)), l ≠ [] → k + l.length = s.pageChunk.length →
      Slotted cfg e (numbered (s.start + k) l) → e.iov cfg s l k = some buffers →
      (∃ (en : OrderedEntry) (r : ℕ), (s.start + k + (l.length - 1 : ℕ), en)
        ∈ numbered (s.start + k) l ∧
        (e.searchIndex en.pageId).allocatedBlockIds.getReadableTo (s.start + k + (l.length - 1 : ℕ))
          = some (r : ℤ) ∧
        buffers.flatten.length = (l.length - 1) * cfg.ioBlockSize + (r + 1)) ∧
      ∀ (idx j : ℕ) (en : OrderedEntry) (r : ℕ), l[idx]? = some en → j ≤ r → j < cfg.ioBlockSize →
        (e.searchIndex en.pageId).allocatedBlockIds.getReadableTo (s.start + k + idx)
          = some (r : ℤ) →
        buffers.flatten[idx * cfg.ioBlockSize + j]? = some ((e.searchIndex en.pageId).data j) := by
  induction l with
  -- the last buffer ends where its page does
  | nil => exact fun _ _ h => absurd rfl h
  | cons x rest ih =>
      intro k buffers _ hlen hsl hiov
      rw [List.length_cons] at hlen
      obtain ⟨hoff, r, hr, hread⟩ :=
        hsl (s.start + k) x (by rw [numbered]; exact List.mem_cons_self)
      rw [iov, Option.bind_eq_bind, iovBytes_eq hoff hread, Option.bind_some] at hiov
      cases rest with
      | nil =>
          -- the last page is sent as far as it is readable
          rw [if_pos (by simpa using hlen)] at hiov
          simp only [iov, Option.bind_eq_bind, Option.bind_some, Option.some.injEq] at hiov
          rw [← hiov]
          refine ⟨⟨x, r, ?_, ?_, ?_⟩, fun idx j en r' hen hj hjB hr' => ?_⟩
          · simp [numbered]
          · simpa using hread
          · simp
          · cases idx with
            | zero =>
                rw [List.getElem?_cons_zero, Option.some.injEq] at hen
                rw [← hen] at hr' ⊢
                rw [Nat.cast_zero, add_zero, hread, Option.some.injEq, Nat.cast_inj] at hr'
                rw [List.flatten_cons, List.flatten_nil, List.append_nil, Nat.zero_mul, zero_add,
                  Mem.getElem?_read _ _ (by omega), zero_add]
            | succ idx => simp at hen
      | cons y rest =>
          -- all pages before it are sent whole
          rw [if_neg (by simp at hlen; omega), Option.bind_eq_bind, Option.bind_eq_some_iff] at hiov
          obtain ⟨more, hmore, hiov⟩ := hiov
          rw [Option.some.injEq] at hiov
          have hnext : s.start + ((k + 1 : ℕ) : ℤ) = s.start + k + 1 := by push_cast; ring
          obtain ⟨⟨en, r1, hen, hr1, hlen1⟩, hget⟩ := ih (k + 1) more (by simp)
            (by simp at hlen ⊢; omega)
            (hsl.mono fun z hz => by
              rw [numbered]
              rw [hnext] at hz
              exact List.mem_cons_of_mem _ hz) hmore
          rw [← hiov, List.flatten_cons]
          have hcount : s.start + ((k + 1 : ℕ) : ℤ) + (((y :: rest).length - 1 : ℕ) : ℤ)
              = s.start + k + (((x :: y :: rest).length - 1 : ℕ) : ℤ) := by
            simp only [List.length_cons, Nat.add_sub_cancel]
            push_cast
            ring
          refine ⟨⟨en, r1, ?_, ?_, ?_⟩, fun idx j en' r' hen' hj hjB hr' => ?_⟩
          · rw [hcount, hnext] at hen
            rw [numbered]
            exact List.mem_cons_of_mem _ hen
          · rw [← hcount]
            exact hr1
          · rw [List.length_append, Mem.length_read, hlen1]
            simp only [List.length_cons, Nat.add_sub_cancel]
            ring
          · cases idx with
            | zero =>
                rw [List.getElem?_cons_zero, Option.some.injEq] at hen'
                rw [← hen', Nat.zero_mul, zero_add,
                  List.getElem?_append_left (by rw [Mem.length_read]; exact hjB),
                  Mem.getElem?_read _ _ hjB, zero_add]
            | succ idx =>
                rw [List.getElem?_cons_succ] at hen'
                have hidx : (idx + 1) * cfg.ioBlockSize + j
                    = cfg.ioBlockSize + (idx * cfg.ioBlockSize + j) := by ring
                rw [hidx, List.getElem?_append_right (by rw [Mem.length_read]; omega),
                  Mem.length_read, Nat.add_sub_cancel_left]
                refine hget idx j en' r' hen' hj hjB ?_
                rw [← hr']
                congr 1
                push_cast
                ring

/-! ### The backing file -/

/-- A list of blocks may have been written to the file `i`. -/
structure Flushed (cfg : Config) (e : Engine) (i : ℕ) (l : List (ℤ × OrderedEntry))
    (d d' : Disk) : Prop where
  names : Disk.SameNames d d'
  others : ∀ j, j ≠ i → d'.bytes j = d.bytes j
  kept : ∀ pos, pos < (d.bytes i).length → (∀ en, (((pos / cfg.ioBlockSize : ℕ) : ℤ), en) ∉ l) →
    (d'.bytes i)[pos]? = (d.bytes i)[pos]?
  length_ge : (d.bytes i).length ≤ (d'.bytes i).length
  length_le : ∀ N : ℕ, (d.bytes i).length ≤ N →
    (∀ (b : ℤ) (en : OrderedEntry) (r : ℤ), (b, en) ∈ l →
      (e.searchIndex en.pageId).allocatedBlockIds.getReadableTo b = some r →
      b * cfg.ioBlockSize + r + 1 ≤ N) → (d'.bytes i).length ≤ N

/-- The blocks of a list are in the file `i`. -/
def Durable (cfg : Config) (e : Engine) (i : ℕ) (l : List (ℤ × OrderedEntry)) (d : Disk) : Prop :=
  ∀ (n : ℕ) (en : OrderedEntry) (r j : ℕ), ((n : ℤ), en) ∈ l →
    (e.searchIndex en.pageId).allocatedBlockIds.getReadableTo n = some (r : ℤ) → j ≤ r →
    (d.bytes i)[n * cfg.ioBlockSize + j]? = some ((e.searchIndex en.pageId).data j)

variable {i : ℕ} {l l' : List (ℤ × OrderedEntry)} {d d' d'' : Disk}

lemma Flushed.refl (l : List (ℤ × OrderedEntry)) (d : Disk) : Flushed cfg e i l d d :=
  ⟨.refl d, fun _ _ => rfl, fun _ _ _ => rfl, le_rfl, fun _ h _ => h⟩

lemma Flushed.append (h : Flushed cfg e i l d d') (h' : Flushed cfg e i l' d' d'') :
    Flushed cfg e i (l ++ l') d d'' where
  names := h.names.trans h'.names
  others := fun j hj => (h'.others j hj).trans (h.others j hj)
  kept := fun pos hpos hn => by
    rw [h'.kept pos (by have := h.length_ge; omega) fun en hen =>
      hn en (List.mem_append_right _ hen),
      h.kept pos hpos fun en hen => hn en (List.mem_append_left _ hen)]
  length_ge := h.length_ge.trans h'.length_ge
  length_le := fun N hN hl => h'.length_le N
    (h.length_le N hN fun b en r hb => hl b en r (List.mem_append_left _ hb))
    fun b en r hb => hl b en r (List.mem_append_right _ hb)

/-- What was written stays, when other blocks are written. -/
lemma Durable.flushed (h : Durable cfg e i l d) (hsl : Slotted cfg e l)
    (hF : Flushed cfg e i l' d d') (hdis : ∀ b en en', (b, en) ∈ l → (b, en') ∉ l') :
    Durable cfg e i l d' := by
  intro n en r j hen hr hj
  obtain ⟨-, r', hr', hread⟩ := hsl n en hen
  rw [hread, Option.some.injEq, Nat.cast_inj] at hr
  have hval := h n en r j hen (by rw [hread, hr]) hj
  have hlt : n * cfg.ioBlockSize + j < (d.bytes i).length := (List.getElem?_eq_some_iff.mp hval).1
  have hdiv : (n * cfg.ioBlockSize + j) / cfg.ioBlockSize = n := by
    rw [mul_comm, Nat.mul_add_div (by omega), Nat.div_eq_of_lt (by omega), add_zero]
  rw [hF.kept _ hlt fun en' hen' => hdis n en en' hen (by rwa [hdiv] at hen'), hval]

/-- One `pwritev`. -/
lemma flushed_pwrite {s : Streak} (hne : s.pageChunk ≠ []) (hsl : Slotted cfg e s.blocks)
    {buffers : List (List UInt8)} (hiov : e.iov cfg s s.pageChunk 0 = some buffers) {fd : Option Fd}
    (hfd : ∀ f, fd = some f → f.ino = i) (fate : Fate) (d : Disk) :
    Flushed cfg e i s.blocks d (d.pwrite fd fate buffers.flatten (s.offset cfg)).2 := by
  have hstart : s.start + ((0 : ℕ) : ℤ) = s.start := by simp
  have hblocks : s.blocks = numbered s.start s.pageChunk := rfl
  obtain ⟨⟨en, r, hen, hr, hlen⟩, -⟩ := iov_flatten s s.pageChunk 0 buffers hne (by simp)
    (by rw [hstart]; exact hsl) hiov
  rw [hstart] at hen hr
  have hpos : 0 < s.pageChunk.length := List.length_pos_of_ne_nil hne
  have hrB : r < cfg.ioBlockSize := by
    obtain ⟨-, r', hr', hread⟩ := hsl _ en hen
    rw [hread, Option.some.injEq, Nat.cast_inj] at hr
    omega
  have hoff : s.offset cfg = s.start * cfg.ioBlockSize := rfl
  cases fd with
  | none => exact .refl _ d
  | some f =>
      rw [Disk.pwrite]
      obtain rfl := hfd f rfl
      split_ifs with hw
      · cases hc : fate.count buffers.flatten.length with
        | none => exact .refl _ d
        | some k =>
            dsimp only
            -- the offset of the streak as a natural number
            obtain ⟨n, hn⟩ : ∃ n : ℕ, s.start = n :=
              ⟨s.start.toNat, by
                rw [hoff] at hw
                have := nonneg_of_mul_nonneg_left hw.2 (by omega)
                omega⟩
            have hoffn : (s.offset cfg).toNat = n * cfg.ioBlockSize := by
              rw [hoff, hn, ← Nat.cast_mul, Int.toNat_natCast]
            -- all the pages but the last are full
            have hcount : (s.pageChunk.length - 1) * cfg.ioBlockSize + cfg.ioBlockSize
                = s.pageChunk.length * cfg.ioBlockSize := by
              rw [← Nat.succ_mul, Nat.succ_eq_add_one, Nat.sub_add_cancel hpos]
            rw [hoffn]
            refine ⟨.setBytes d _ _, fun j hj => Disk.bytes_setBytes_ne d _ hj,
              fun pos hlt hout => ?_, ?_, fun N hN hl => ?_⟩
            · rw [Disk.bytes_setBytes_self]
              refine Bytes.getElem?_write_of_not_mem _ ?_ hlt
              by_contra hin
              rw [not_or, not_lt, not_le, List.length_take] at hin
              have h1 : n ≤ pos / cfg.ioBlockSize := (Nat.le_div_iff_mul_le (by omega)).mpr hin.1
              have h2 : pos / cfg.ioBlockSize < n + s.pageChunk.length :=
                (Nat.div_lt_iff_lt_mul (by omega)).mpr (by rw [Nat.add_mul]; omega)
              obtain ⟨en', hen'⟩ : ∃ en', s.pageChunk[pos / cfg.ioBlockSize - n]? = some en' :=
                ⟨_, List.getElem?_eq_getElem (by omega)⟩
              refine hout en' ?_
              rw [hblocks, mem_numbered]
              exact ⟨_, by rw [hn]; omega, hen'⟩
            · rw [Disk.bytes_setBytes_self]
              exact Bytes.length_le_length_write _ _ _
            · rw [Disk.bytes_setBytes_self]
              have hend := hl _ en r hen hr
              rw [hn, ← Nat.cast_add, ← Nat.cast_mul] at hend
              have hexp : (n + (s.pageChunk.length - 1)) * cfg.ioBlockSize
                  = n * cfg.ioBlockSize + (s.pageChunk.length - 1) * cfg.ioBlockSize := by ring
              by_cases htake : buffers.flatten.take k = []
              · rw [htake, Bytes.write_nil]
                exact hN
              · rw [Bytes.length_write _ _ htake, List.length_take]
                omega
      · exact .refl _ d

/-- One `pwritev` that succeeds in full. -/
lemma durable_pwrite {s : Streak} (hne : s.pageChunk ≠ []) (hsl : Slotted cfg e s.blocks)
    {buffers : List (List UInt8)} (hiov : e.iov cfg s s.pageChunk 0 = some buffers) {fd : Fd}
    (hfd : fd.ino = i ∧ fd.writable = true) (hstart : 0 ≤ s.start) (d : Disk) :
    Durable cfg e i s.blocks (d.pwrite (some fd) .full buffers.flatten (s.offset cfg)).2 := by
  have hzero : s.start + ((0 : ℕ) : ℤ) = s.start := by simp
  have hblocks : s.blocks = numbered s.start s.pageChunk := rfl
  obtain ⟨-, hget⟩ := iov_flatten s s.pageChunk 0 buffers hne (by simp)
    (by rw [hzero]; exact hsl) hiov
  obtain ⟨m, hm⟩ : ∃ m : ℕ, s.start = m := Int.eq_ofNat_of_zero_le hstart
  have hoff : s.offset cfg = ((m * cfg.ioBlockSize : ℕ) : ℤ) := by
    rw [Nat.cast_mul, ← hm]
    rfl
  rw [hoff, Disk.pwrite_full _ hfd.2, hfd.1]
  intro n en r j hen hr hj
  obtain ⟨-, r', hr', hread⟩ := hsl n en hen
  rw [hread, Option.some.injEq, Nat.cast_inj] at hr
  rw [hblocks, mem_numbered] at hen
  obtain ⟨k, hk, hen⟩ := hen
  have hnk : n = m + k := by
    rw [hm] at hk
    exact_mod_cast hk
  have hval := hget k j en r hen hj (by omega) (by rw [hzero, ← hk, hread, hr])
  have hlt := (List.getElem?_eq_some_iff.mp hval).1
  have hpos : n * cfg.ioBlockSize + j = m * cfg.ioBlockSize + (k * cfg.ioBlockSize + j) := by
    rw [hnk]
    ring
  rw [Disk.bytes_setBytes_self, hpos, Bytes.getElem?_write_of_mem _ (by omega) (by omega),
    Nat.add_sub_cancel_left, hval]

/-- **The flush of all streaks**, whatever becomes of the calls. -/
theorem flushStreaks_flushed {fd : Option Fd} (hfd : ∀ f, fd = some f → f.ino = i) (io : SyncIo)
    (l : List Streak) :
    ∀ (k : ℕ) (m m' : Map ℤ OrderedEntry) (d d' : Disk), (∀ s ∈ l, s.pageChunk ≠ []) →
      Slotted cfg e (l.flatMap Streak.blocks) → e.flushStreaks cfg fd io l k m d = some (m', d') →
      Flushed cfg e i (l.flatMap Streak.blocks) d d' := by
  induction l with
  | nil =>
      intro k m m' d d' _ _ h
      rw [flushStreaks, Option.some.injEq, Prod.mk.injEq] at h
      rw [← h.2]
      exact .refl _ d
  | cons s l ih =>
      intro k m m' d d' hne hsl h
      simp only [flushStreaks, Option.bind_eq_bind, Option.bind_eq_some_iff] at h
      obtain ⟨buffers, hiov, m1, -, h⟩ := h
      rw [List.flatMap_cons] at hsl ⊢
      exact (flushed_pwrite (hne s List.mem_cons_self)
        (hsl.mono fun x hx => List.mem_append_left _ hx) hiov hfd _ d).append
        (ih (k + 1) _ _ _ _ (fun s' hs' => hne s' (List.mem_cons_of_mem _ hs'))
          (hsl.mono fun x hx => List.mem_append_right _ hx) h)

/-- **The flush of all streaks** when every call succeeds in full. -/
theorem flushStreaks_durable {fd : Fd} (hfd : fd.ino = i ∧ fd.writable = true) {io : SyncIo}
    (hio : ∀ k, io.pwritev k = .full) (l : List Streak) :
    ∀ (k : ℕ) (m m' : Map ℤ OrderedEntry) (d d' : Disk), (∀ s ∈ l, s.pageChunk ≠ []) →
      Slotted cfg e (l.flatMap Streak.blocks) → ((l.flatMap Streak.blocks).map Prod.fst).Nodup →
      (∀ x ∈ l.flatMap Streak.blocks, 0 ≤ x.1) →
      e.flushStreaks cfg (some fd) io l k m d = some (m', d') →
      Durable cfg e i (l.flatMap Streak.blocks) d' := by
  induction l with
  | nil => exact fun _ _ _ _ _ _ _ _ _ _ n en r j hen => absurd hen (by simp)
  | cons s l ih =>
      intro k m m' d d' hne hsl hnd hnn h
      simp only [flushStreaks, Option.bind_eq_bind, Option.bind_eq_some_iff] at h
      obtain ⟨buffers, hiov, m1, -, h⟩ := h
      rw [List.flatMap_cons] at hsl hnn ⊢
      rw [List.flatMap_cons, List.map_append, List.nodup_append] at hnd
      have hne' : ∀ s' ∈ l, s'.pageChunk ≠ [] := fun s' hs' => hne s' (List.mem_cons_of_mem _ hs')
      have hsl1 : Slotted cfg e s.blocks := hsl.mono fun x hx => List.mem_append_left _ hx
      have hsl2 : Slotted cfg e (l.flatMap Streak.blocks) :=
        hsl.mono fun x hx => List.mem_append_right _ hx
      have hstart : 0 ≤ s.start := by
        obtain ⟨en, rest, hchunk⟩ := List.exists_cons_of_ne_nil (hne s List.mem_cons_self)
        refine hnn (s.start, en) (List.mem_append_left _ ?_)
        show (s.start, en) ∈ numbered s.start s.pageChunk
        rw [hchunk, numbered]
        exact List.mem_cons_self
      have h1 : Durable cfg e i s.blocks _ :=
        durable_pwrite (hne s List.mem_cons_self) hsl1 hiov hfd hstart d
      rw [hio k] at h
      have h2 := flushStreaks_flushed (i := i) (fun f hf => by
        rw [← Option.some.inj hf]; exact hfd.1)
        io l (k + 1) _ _ _ _ hne' hsl2 h
      have h3 := ih (k + 1) _ _ _ _ hne' hsl2 hnd.2.1
        (fun x hx => hnn x (List.mem_append_right _ hx)) h
      have h4 := h1.flushed hsl1 h2 fun b en en' hb hb' => hnd.2.2 b
        (List.mem_map.mpr ⟨(b, en), hb, rfl⟩) b (List.mem_map.mpr ⟨(b, en'), hb', rfl⟩) rfl
      intro n en r j hen hr hj
      rcases List.mem_append.mp hen with hmem | hmem
      · exact h4 n en r j hmem hr hj
      · exact h3 n en r j hmem hr hj

end Engine

end LazyFS
