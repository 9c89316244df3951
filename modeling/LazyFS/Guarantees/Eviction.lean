import LazyFS.File.Kept

/-!
**Eviction** and the number of pages.

* `FS.Twin`: two file systems with the same files, the second with more free pages.
* `Twin.run`: a call for which the pages of the first are enough stops both or keeps them twins.
* `sameReads_of_roomy`: a run that evicts nothing reads what it reads with more pages.
* `eviction_loses`: a page that is evicted is not written back: the file that is opened for it is
  named by the inode number.
-/

namespace LazyFS

open Engine

variable {cfg : Config}

/-- The same configuration with another number of pages. -/
def Config.withPages (cfg : Config) (n : ℕ) : Config := { cfg with cacheNrPages := n }

lemma OnePage.withPages (h : OnePage cfg) (n : ℕ) : OnePage (cfg.withPages n) :=
  ⟨h.page_eq, h.two_le⟩

/-- Writes, reads and growing truncations of files of any size, on handles of theirs, with backing
calls that succeed. -/
def FileOp.Grows (fs : FS) : FileOp → Prop
  | getattr path => ∃ i, fs.disk.ino path = some i
  | read path _ size offset fi io => ∃ i, fs.disk.ino path = some i ∧ 0 < size ∧
      offset + size ≤ 2 ^ 63 ∧ FS.ReadHandle i fi ∧ FS.ReadIo.Ok io
  | write path _ size offset fi io fillIo => ∃ i, fs.disk.ino path = some i ∧ 0 < size ∧
      offset + size ≤ 2 ^ 63 ∧ (fi.fh.ino = i ∧ fi.fh.writable = true ∧ fi.directIo = false) ∧
      io.Ok ∧ fillIo.Ok
  | truncate path n fi io fillIo => ∃ i, fs.disk.ino path = some i ∧ fs.sizeOf i ≤ n ∧ n ≤ 2 ^ 63 ∧
      FS.TruncateHandle i fi ∧ io.Ok ∧ fillIo.Ok
  | fsync .. | clear => False

/-- The file system after a call. -/
def FileOp.next (cfg : Config) (fs : FS) (op : FileOp) : Option FS := (op.run cfg fs).map Prod.fst

namespace FileView

variable {B size offset k : ℕ} {src : List UInt8} {f : FileView} {free : ℕ}

/-- **More free pages** change nothing in a write that has enough of them. -/
lemma Roomy.writeAt_add (hB : 0 < B) (hs : src ≠ [])
    (h : Roomy B (min size offset) (offset + src.length) (f, free)) :
    FileView.writeAt B size offset src (f, free + k)
      = ((FileView.writeAt B size offset src (f, free)).1,
          (FileView.writeAt B size offset src (f, free)).2 + k) := by
  obtain ⟨h1, h2⟩ := writeAt_enough (s := (f, free)) hB hs (fun n hn => mem_ids hn) h
  obtain ⟨h3, h4⟩ := writeAt_enough (s := (f, free + k)) hB hs (fun n hn => mem_ids hn)
    (le_trans h (Nat.le_add_right _ _))
  have heq := h3.trans h1.symm
  rw [heq] at h4
  refine Prod.ext heq ?_
  dsimp only at h2 h4 ⊢
  omega

/-- The same for the fill of a truncation. -/
lemma Roomy.fillTo_add (h : size < offset → Roomy B size offset (f, free)) :
    FileView.fillTo B size offset (f, free + k)
      = ((FileView.fillTo B size offset (f, free)).1,
        (FileView.fillTo B size offset (f, free)).2 + k) := by
  rcases Nat.lt_or_ge size offset with hlt | hge
  · obtain ⟨h1, h2⟩ := fillTo_enough (s := (f, free)) (fun _ n hn => mem_ids hn) (h hlt)
    obtain ⟨h3, h4⟩ := fillTo_enough (s := (f, free + k)) (fun _ n hn => mem_ids hn)
      (le_trans (h hlt) (Nat.le_add_right _ _))
    have heq := h3.trans h1.symm
    rw [heq] at h4
    refine Prod.ext heq ?_
    dsimp only at h2 h4 ⊢
    omega
  · rw [FileView.fillTo, FileView.fillTo, if_neg (by omega), if_neg (by omega)]

lemma Roomy.growTo_add (h : size < offset → Roomy B size offset (f, free)) :
    FileView.growTo cfg B size offset (f, free + k)
      = ((FileView.growTo cfg B size offset (f, free)).1,
          (FileView.growTo cfg B size offset (f, free)).2 + k) := by
  rw [growTo, growTo, Roomy.fillTo_add h]
  split_ifs <;> rfl

end FileView

namespace FS

/-- The files of `t` are those of `s`, and `k` pages more are free. -/
structure Twin (cfg cfg' : Config) (k : ℕ) (s t : FS) : Prop where
  left : s.Sound cfg
  right : t.Sound cfg'
  ino : ∀ path, t.disk.ino path = s.disk.ino path
  file : ∀ i, t.file cfg' i = s.file cfg i
  size : ∀ i, t.sizeOf i = s.sizeOf i
  free : t.free = s.free + k

variable {s t s' t' : FS} {M i n k : ℕ} {path : Path}

/-- A call on the file `i` of both, to the same view. -/
lemma Twin.touched {cfg' : Config} (h : Twin cfg cfg' k s t) (hs : Touched cfg path i n s s')
    (ht : Touched cfg' path i n t t') {v : FileView × ℕ} (hv : (s'.file cfg i, s'.free) = v)
    (hv' : (t'.file cfg' i, t'.free) = (v.1, v.2 + k)) : Twin cfg cfg' k s' t' where
  left := hs.sound
  right := ht.sound
  ino := fun path => (ht.names.ino path).trans ((h.ino path).trans (hs.names.ino path).symm)
  file := fun j => by
    by_cases hj : j = i
    · rw [hj, (Prod.mk.inj hv').1, ← hv]
    · rw [ht.file j hj, hs.file j hj, h.file]
  size := fun j => by
    by_cases hj : j = i
    · rw [hj, ht.sizeOf, hs.sizeOf]
    · rw [ht.sizeOf_ne hj, hs.sizeOf_ne hj, h.size]
  free := by rw [(Prod.mk.inj hv').2, ← hv]

/-- **A read** of both stops, or returns the same. -/
lemma Twin.read (h : OnePage cfg) (hst : Twin cfg (cfg.withPages M) k s t)
    (hi : s.disk.ino path = some i) (buf : Mem) {size offset : ℕ} (hsize : 0 < size)
    (hw : offset + size ≤ 2 ^ 63) {fi : Option FileInfo} (hfi : ReadHandle i fi) {io : ReadIo}
    (hio : ReadIo.Ok io) :
    (s.lfsRead cfg path buf size offset fi io = none ∧
        t.lfsRead (cfg.withPages M) path buf size offset fi io = none) ∨
      ∃ s' t' r, s.lfsRead cfg path buf size offset fi io = some (s', r) ∧
        t.lfsRead (cfg.withPages M) path buf size offset fi io = some (t', r) ∧
        Twin cfg (cfg.withPages M) k s' t' := by
  have hw' : offset + size ≤ 2 ^ 64 := hw.trans (by norm_num)
  obtain ⟨hsn, hss⟩ := hst.left.lfsRead h.pos hi buf hsize hw' hfi hio
  obtain ⟨htn, hts⟩ :=
    hst.right.lfsRead (h.withPages M).pos ((hst.ino path).trans hi) buf hsize hw' hfi hio
  rw [hst.file, hst.size] at htn hts
  cases hread : (s.file cfg i).read cfg.ioBlockSize (s.sizeOf i) offset size buf with
  | none => exact .inl ⟨hsn hread, htn hread⟩
  | some r =>
      obtain ⟨s', h1, h2, h3, h4⟩ := hss r.1 r.2 hread
      obtain ⟨t', h5, h6, h7, h8⟩ := hts r.1 r.2 hread
      refine .inr ⟨s', t', _, h1, h5, hst.touched h2 h6 (v := (s.file cfg i, s.free)) ?_ ?_⟩
      · rw [h3, h4]
      · rw [h7, h8, hst.free]

/-- **One call** for which the pages of the first are enough stops both or keeps them twins. -/
lemma Twin.run (h : OnePage cfg) (hst : Twin cfg (cfg.withPages M) k s t) {op : FileOp}
    (hop : op.Grows s) (hroom : op.Roomy cfg s) :
    (op.next cfg s = none ∧ op.next (cfg.withPages M) t = none) ∨
      ∃ s' t', op.next cfg s = some s' ∧ op.next (cfg.withPages M) t = some t' ∧
        Twin cfg (cfg.withPages M) k s' t' := by
  have h' := h.withPages M
  -- both pools serve the call, and the larger one leaves as many pages more free
  cases op with
  | getattr path =>
      obtain ⟨i, hi⟩ := hop
      obtain ⟨s', st, h1, hopen, -⟩ := hst.left.lfsGetattr hi
      obtain ⟨t', st', h2, hopen', -⟩ := hst.right.lfsGetattr ((hst.ino path).trans hi)
      have htouch := hopen'.touched
      rw [hst.size] at htouch
      refine .inr ⟨s', t', by rw [FileOp.next, FileOp.run, h1]; rfl,
        by rw [FileOp.next, FileOp.run, h2]; rfl, hst.touched hopen.touched htouch hopen.view_eq ?_⟩
      rw [hopen'.view_eq, hst.file, hst.free]
  | read path buf size offset fi io =>
      obtain ⟨i, hi, hsize, hw, hfi, hio⟩ := hop
      rcases hst.read h hi buf hsize hw hfi hio with ⟨h1, h2⟩ | ⟨s', t', r, h1, h2, h3⟩
      · exact .inl ⟨by rw [FileOp.next, FileOp.run, h1]; rfl, by
          rw [FileOp.next, FileOp.run, h2]; rfl⟩
      · exact .inr ⟨s', t', by rw [FileOp.next, FileOp.run, h1]; rfl,
          by rw [FileOp.next, FileOp.run, h2]; rfl, h3⟩
  | write path buf size offset fi io fillIo =>
      obtain ⟨i, hi, hsize, hw, hfi, hio, hfillIo⟩ := hop
      have hw' : offset + size ≤ 2 ^ 64 := hw.trans (by norm_num)
      have hlen : (buf.read 0 size).length = size := Mem.length_read _ _ _
      have hne : buf.read 0 size ≠ [] := by
        rw [← List.length_pos_iff, hlen]
        exact hsize
      have hr := hroom i hi
      have hr' : FileView.Roomy cfg.ioBlockSize (min (t.sizeOf i) offset) (offset + size)
          (t.file (cfg.withPages M) i, t.free) := by
        rw [hst.size, hst.file, hst.free]
        exact le_trans hr (Nat.le_add_right _ _)
      obtain ⟨s', h1, ht1, hv1⟩ := hst.left.lfsWrite h hi buf hsize hw' hfi hio hfillIo
        (enoughIfLru_of_roomy fun _ => hr)
      obtain ⟨t', h2, ht2, hv2⟩ :=
        hst.right.lfsWrite h' ((hst.ino path).trans hi) buf hsize hw' hfi hio
        hfillIo (enoughIfLru_of_roomy fun _ => hr')
      rw [hst.size] at ht2
      refine .inr ⟨s', t', by rw [FileOp.next, FileOp.run, h1]; rfl,
        by rw [FileOp.next, FileOp.run, h2]; rfl, hst.touched ht1 ht2 hv1 (hv2.trans ?_)⟩
      rw [hst.size, hst.file, hst.free]
      exact FileView.Roomy.writeAt_add h.pos hne (by rw [hlen]; exact hr)
  | truncate path n fi io fillIo =>
      obtain ⟨i, hi, hgrow, hn, hfi, hio, hfillIo⟩ := hop
      have hn' : n ≤ 2 ^ 64 := hn.trans (by norm_num)
      have hr := hroom i hi
      have hr' : t.sizeOf i < n → FileView.Roomy cfg.ioBlockSize (t.sizeOf i) n
          (t.file (cfg.withPages M) i, t.free) := by
        rw [hst.size, hst.file, hst.free]
        exact fun hlt => le_trans (hr hlt) (Nat.le_add_right _ _)
      obtain ⟨s', r, h1, ht1, hv1⟩ := hst.left.lfsTruncate_any h hi hn' hfi hio hfillIo
        fun hlt => enoughIfLru_of_roomy fun _ => hr hlt
      obtain ⟨t', r', h2, ht2, hv2⟩ :=
        hst.right.lfsTruncate_any h' ((hst.ino path).trans hi) hn' hfi hio
        hfillIo fun hlt => enoughIfLru_of_roomy fun _ => hr' hlt
      refine .inr ⟨s', t', by rw [FileOp.next, FileOp.run, h1]; rfl,
        by rw [FileOp.next, FileOp.run, h2]; rfl, hst.touched ht1 ht2 hv1 (hv2.trans ?_)⟩
      rw [hst.size, hst.file, hst.free]
      exact FileView.Roomy.growTo_add hr
  | fsync | clear => exact hop.elim

/-- Two fresh file systems. -/
lemma twin_new (h : OnePage cfg) (d : Disk) (hM : cfg.cacheNrPages ≤ M) :
    Twin cfg (cfg.withPages M)
    (M - cfg.cacheNrPages) ⟨.new cfg, d⟩ ⟨.new (cfg.withPages M), d⟩ := by
  have h1 := (shows_new h d (P := fun _ _ => True) fun _ => trivial).sound
  have h2 := (shows_new (h.withPages M) d (P := fun _ _ => True) fun _ => trivial).sound
  refine ⟨h1, h2, fun _ => rfl, fun _ => ?_, fun _ => rfl, ?_⟩
  · rfl
  · show (List.range M).length = (List.range cfg.cacheNrPages).length + (M - cfg.cacheNrPages)
    rw [List.length_range, List.length_range]
    omega

end FS

/-- Every read returns the same in both. -/
def SameReads (cfg cfg' : Config) (s t : FS) : Prop :=
  ∀ path i, s.disk.ino path = some i → ∀ (buf : Mem) (size offset : ℕ) (fi : Option FileInfo)
    (io : ReadIo), 0 < size → offset + size ≤ 2 ^ 63 → FS.ReadHandle i fi → FS.ReadIo.Ok io →
    (s.lfsRead cfg path buf size offset fi io).map Prod.snd
      = (t.lfsRead cfg' path buf size offset fi io).map Prod.snd

/-- **A run that evicts nothing** reads what it reads with any larger number of pages. -/
theorem sameReads_of_roomy (h : OnePage cfg) (d : Disk) {ops : List FileOp}
    (hops : Runs.Guarded (FileOp.next cfg) (fun fs op => op.Grows fs ∧ op.Roomy cfg fs)
      ⟨.new cfg, d⟩ ops) {M : ℕ} (hM : cfg.cacheNrPages ≤ M) :
    (Runs.run (FileOp.next cfg) ⟨.new cfg, d⟩ ops = none ∧
        Runs.run (FileOp.next (cfg.withPages M)) ⟨.new (cfg.withPages M), d⟩ ops = none) ∨
      ∃ s t, Runs.run (FileOp.next cfg) ⟨.new cfg, d⟩ ops = some s ∧
        Runs.run (FileOp.next (cfg.withPages M)) ⟨.new (cfg.withPages M), d⟩ ops = some t ∧
        SameReads cfg (cfg.withPages M) s t := by
  have hstep : ∀ (s t : FS) (op : FileOp),
      FS.Twin cfg (cfg.withPages M) (M - cfg.cacheNrPages) s t →
      op.Grows s ∧ op.Roomy cfg s →
      (op.next cfg s = none ∧ op.next (cfg.withPages M) t = none) ∨
        ∃ s' t', op.next cfg s = some s' ∧ op.next (cfg.withPages M) t = some t' ∧
          FS.Twin cfg (cfg.withPages M) (M - cfg.cacheNrPages) s' t' :=
    fun s t op hst hop => hst.run h hop.1 hop.2
  rcases Runs.run_both hstep (FS.twin_new h d hM) hops
    with hnone | ⟨s, t, h1, h2, hst⟩
  · exact .inl hnone
  · refine .inr ⟨s, t, h1, h2, fun path i hi buf size offset fi io hsize hw hfi hio => ?_⟩
    rcases hst.read h hi buf hsize hw hfi hio with ⟨h3, h4⟩ | ⟨s', t', r, h3, h4, -⟩
    · rw [h3, h4]
    · rw [h3, h4]
      rfl

/-- The write of a block with a page for it. -/
theorem sameReads_writeAbcd :
    (Runs.run (FileOp.next (.tiny 2 true)) ⟨.new (.tiny 2 true), oneFile⟩ [writeAbcd] = none ∧
        Runs.run (FileOp.next ((Config.tiny 2 true).withPages 5))
          ⟨.new ((Config.tiny 2 true).withPages 5), oneFile⟩ [writeAbcd] = none) ∨
      ∃ s t, Runs.run (FileOp.next (.tiny 2 true)) ⟨.new (.tiny 2 true), oneFile⟩ [writeAbcd]
        = some s ∧
        Runs.run (FileOp.next ((Config.tiny 2 true).withPages 5))
          ⟨.new ((Config.tiny 2 true).withPages 5), oneFile⟩ [writeAbcd] = some t ∧
        SameReads (.tiny 2 true) ((Config.tiny 2 true).withPages 5) s t := by
  have hops : Runs.Guarded (FileOp.next (.tiny 2 true))
      (fun fs op => op.Grows fs ∧ op.Roomy (.tiny 2 true) fs)
      ⟨.new (.tiny 2 true), oneFile⟩ [writeAbcd] := by
    refine ⟨⟨⟨1, by decide, by decide, by decide, ⟨rfl, rfl, rfl⟩,
      ⟨rfl, fun _ => rfl, fun _ => rfl⟩,
      ⟨rfl, fun _ => rfl, fun _ => rfl⟩⟩, fun i hi => ?_⟩, fun _ _ => trivial⟩
    obtain rfl : 1 = i := Option.some.inj hi
    decide +kernel
  exact sameReads_of_roomy (Config.onePage_tiny 2 true) oneFile hops (by decide)

/-! ### A page that is evicted -/

/-- The write of the block after the first. -/
def writeNext : FileOp := .write ["f"] abcd 4 4 handle {} {}

/-- A call for which it is easy to see. -/
lemma grows_write {fs : FS} (hi : fs.disk.ino ["f"] = some 1) :
    writeAbcd.Grows fs ∧ writeNext.Grows fs :=
  ⟨⟨1, hi, by decide, by decide, ⟨rfl, rfl, rfl⟩, ⟨rfl, fun _ => rfl, fun _ => rfl⟩,
    ⟨rfl, fun _ => rfl, fun _ => rfl⟩⟩, ⟨1, hi, by decide, by decide, ⟨rfl, rfl, rfl⟩,
    ⟨rfl, fun _ => rfl, fun _ => rfl⟩, ⟨rfl, fun _ => rfl, fun _ => rfl⟩⟩⟩

/-- Two blocks written with one page: the first is lost. -/
theorem eviction_loses : ∃ s t,
    Runs.Guarded (FileOp.next (.tiny 1 true)) (fun fs op => op.Grows fs)
      ⟨.new (.tiny 1 true), oneFile⟩ [writeAbcd, writeNext] ∧
    Runs.Guarded (FileOp.next (.tiny 2 true))
    (fun fs op => op.Grows fs ∧ op.Roomy (.tiny 2 true) fs)
      ⟨.new (.tiny 2 true), oneFile⟩ [writeAbcd, writeNext] ∧
    Runs.run (FileOp.next (.tiny 1 true)) ⟨.new (.tiny 1 true), oneFile⟩ [writeAbcd, writeNext]
      = some s ∧
    Runs.run (FileOp.next (.tiny 2 true)) ⟨.new (.tiny 2 true), oneFile⟩ [writeAbcd, writeNext]
      = some t ∧
    ¬ SameReads (.tiny 1 true) (.tiny 2 true) s t := by
  -- both runs and the reads after them, evaluated
  have hrun : ((Runs.run (FileOp.next (.tiny 1 true)) ⟨.new (.tiny 1 true), oneFile⟩
        [writeAbcd, writeNext]).bind fun s =>
      (Runs.run (FileOp.next (.tiny 2 true)) ⟨.new (.tiny 2 true), oneFile⟩
        [writeAbcd, writeNext]).map fun t => (s.disk.ino ["f"],
          (s.lfsRead (.tiny 1 true) ["f"] (fun _ => 0) 4 0 none {}).map fun r => r.2.1,
          (t.lfsRead (.tiny 2 true) ["f"] (fun _ => 0) 4 0 none {}).map fun r => r.2.1))
      = some (some 1, some 0, some 4) := by decide +kernel
  obtain ⟨s, hs, hrun⟩ := Option.bind_eq_some_iff.mp hrun
  obtain ⟨t, ht, hval⟩ := Option.map_eq_some_iff.mp hrun
  simp only [Prod.mk.injEq] at hval
  obtain ⟨hi, h1, h2⟩ := hval
  -- the calls stay within the claim on both pools
  have hnext : ∀ cfg : Config, cfg = .tiny 1 true ∨ cfg = .tiny 2 true →
      ∀ u, FileOp.next cfg ⟨.new cfg, oneFile⟩ writeAbcd = some u → u.disk.ino ["f"] = some 1 := by
    rintro cfg (rfl | rfl) u hu
    · have hino : (FileOp.next (.tiny 1 true) ⟨.new (.tiny 1 true), oneFile⟩ writeAbcd).map
          (fun u => u.disk.ino ["f"]) = some (some 1) := by decide +kernel
      rwa [hu, Option.map_some, Option.some.injEq] at hino
    · have hino : (FileOp.next (.tiny 2 true) ⟨.new (.tiny 2 true), oneFile⟩ writeAbcd).map
          (fun u => u.disk.ino ["f"]) = some (some 1) := by decide +kernel
      rwa [hu, Option.map_some, Option.some.injEq] at hino
  have hroom : ∀ u, FileOp.next (.tiny 2 true) ⟨.new (.tiny 2 true), oneFile⟩ writeAbcd = some u →
      FileView.Roomy 4 (min (u.sizeOf 1) 4) (4 + 4) (u.file (.tiny 2 true) 1, u.free) := by
    intro u hu
    have hdec : (FileOp.next (.tiny 2 true) ⟨.new (.tiny 2 true), oneFile⟩ writeAbcd).map (fun u =>
        decide (FileView.Roomy 4 (min (u.sizeOf 1) 4) (4 + 4) (u.file (.tiny 2 true) 1, u.free)))
        = some true := by decide +kernel
    rw [hu, Option.map_some, Option.some.injEq] at hdec
    exact of_decide_eq_true hdec
  refine ⟨s, t, ⟨(grows_write (by decide)).1, fun u hu =>
    ⟨(grows_write (hnext _ (.inl rfl) u hu)).2,
      fun _ _ => trivial⟩⟩, ⟨⟨(grows_write (by decide)).1, fun i h1 => ?_⟩, fun u hu =>
      ⟨⟨(grows_write (hnext _ (.inr rfl) u hu)).2, fun i h1 => ?_⟩, fun _ _ => trivial⟩⟩, hs, ht,
    fun hsame => ?_⟩
  · obtain rfl : 1 = i := Option.some.inj h1
    decide +kernel
  · obtain rfl : 1 = i := Option.some.inj ((hnext _ (.inr rfl) u hu).symm.trans h1)
    exact hroom u hu
  · have heq := hsame ["f"] 1 hi (fun _ => 0) 4 0 none {} (by decide) (by decide)
      (fun f hf => by cases hf) (fun _ => rfl)
    have heq' := congrArg (Option.map Prod.fst) heq
    rw [Option.map_map, Option.map_map] at heq'
    rw [show (Prod.fst ∘ Prod.snd : FS × ℤ × Mem → ℤ) = fun r => r.2.1 from rfl, h1, h2] at heq'
    cases heq'

end LazyFS
