import LazyFS.File.Kept

/-!
**Failed writes.**

* `Pool`: the blocks of a file that are cached and the free pages; `Pool.Served`: the backing calls
  that a block of a write makes succeed in full.
* `FS.WriteCallsOk`: those of a whole write, with the hole before it.
* `Reported`: a write that returns its size is read back.
* `reported_of_reached`: it is, in every state reached, when the calls that it makes succeed.
* `failed_write_unreported`: after a failed `open` the size is returned all the same.
-/

namespace LazyFS

variable {cfg : Config}

/-! ### The pool in a write -/

/-- What a write finds of the pool: the blocks of the file that are cached, and the number of free
pages. -/
structure Pool where
  cached : ℕ → Bool
  free : ℕ

namespace Pool

/-- A block that is not cached takes a page if there is one. -/
def take (s : Pool) (n : ℕ) : Pool :=
  if s.cached n || s.free = 0 then s else ⟨Function.update s.cached n true, s.free - 1⟩

/-- The blocks of a write, one after the other. -/
def takes (l : List ℕ) (s : Pool) : Pool := l.foldl take s

/-- The backing calls that a write makes for a block succeed in full: none for a cached block; for
another one the open for reading, the read of its old bytes if it has any and the pool was not full
at the start, and the write of the block when there is no page. -/
def Served (B known : ℕ) (full : Bool) (io : WriteIo) (s : Pool) (n : ℕ) : Prop :=
  s.cached n = false → io.openRdonly = true ∧
    (n * B < known → full = false → io.pread n = .full) ∧ (s.free = 0 → io.pwrite n = .full)

/-- The same for the blocks of a write. -/
def ServedAll (B known : ℕ) (full : Bool) (io : WriteIo) : List ℕ → Pool → Prop
  | [], _ => True
  | n :: l, s => s.Served B known full io n ∧ ServedAll B known full io l (s.take n)

instance (B known : ℕ) (full : Bool) (io : WriteIo) (s : Pool)
    (n : ℕ) : Decidable (s.Served B known full io n) :=
  inferInstanceAs (Decidable (s.cached n = false → io.openRdonly = true ∧
    (n * B < known → full = false → io.pread n = .full) ∧ (s.free = 0 → io.pwrite n = .full)))

instance (B known : ℕ) (full : Bool) (io : WriteIo) :
    ∀ (l : List ℕ) (s : Pool), Decidable (ServedAll B known full io l s)
  | [], _ => isTrue trivial
  | n :: l, s =>
      have := instDecidableServedAll B known full io l (s.take n)
      inferInstanceAs (Decidable (s.Served B known full io n ∧
        ServedAll B known full io l (s.take n)))

/-- The pool of a file, as far as the blocks of a list are concerned. -/
structure Of (s : Pool) (v : FileView × ℕ) (l : List ℕ) : Prop where
  free : s.free = v.2
  cached : ∀ n ∈ l, s.cached n = (v.1.blocks (toInt n)).isSome

namespace Of

variable {s : Pool} {v : FileView × ℕ} {l : List ℕ} {n B known offset : ℕ} {src : List UInt8}

/-- One block of a write, which has a number of its own. -/
lemma take (h : s.Of v l) (hn : n ∈ l) (hint : ∀ m ∈ l, toInt m = toInt n → m = n) :
    (s.take n).Of (FileView.turn B known offset src v n) l := by
  have hcn := h.cached n hn
  have hother : ∀ m ∈ l, m ≠ n → (FileView.turn B known offset src v n).1.blocks (toInt m)
      = v.1.blocks (toInt m) := fun m hm hne =>
    FileView.blocks_writeBlock_ne fun heq => hne (hint m hm heq)
  by_cases hc : s.cached n = true
  · -- the block is cached
    have hsome : (v.1.blocks (toInt n)).isSome := by rw [← hcn, hc]
    rw [Pool.take, hc, Bool.true_or, if_pos rfl]
    refine ⟨?_, fun m hm => ?_⟩
    · rw [FileView.turn, if_pos hsome]
      exact h.free
    · by_cases hmn : m = n
      · rw [hmn, hc]
        exact (FileView.isSome_turn n hsome).symm
      · rw [hother m hm hmn]
        exact h.cached m hm
  · rw [Bool.not_eq_true] at hc
    have hnone : v.1.blocks (toInt n) = none := by
      rw [hc] at hcn
      exact Option.isNone_iff_eq_none.mp (by rw [← Option.not_isSome, ← hcn]; rfl)
    have hfree := h.free
    by_cases hz : s.free = 0
    · -- it is written through
      rw [Pool.take, hc, Bool.false_or, decide_eq_true hz, if_pos rfl]
      refine ⟨?_, fun m hm => ?_⟩
      · rw [FileView.turn]
        dsimp only
        split_ifs <;> omega
      · by_cases hmn : m = n
        · have hfinds : v.1.finds v.2 n = false := by
            rw [FileView.finds, hnone, ← hfree, hz]
            rfl
          rw [hmn, hc, FileView.turn, hfinds, FileView.writeBlock_through hnone, hnone]
          rfl
        · rw [hother m hm hmn]
          exact h.cached m hm
    · -- it takes a page
      rw [Pool.take, hc, Bool.false_or, decide_eq_false hz, if_neg (by simp)]
      refine ⟨?_, fun m hm => ?_⟩
      · rw [FileView.turn, hnone, if_neg (by simp), ← hfree]
      · dsimp only
        by_cases hmn : m = n
        · rw [hmn, Function.update_self]
          exact (FileView.isSome_writeBlock (.inr (by
            rw [FileView.finds, hnone, Option.isSome_none, Bool.false_or,
              decide_eq_true_eq, ← hfree]
            exact hz))).symm
        · rw [Function.update_of_ne hmn, hother m hm hmn]
          exact h.cached m hm

/-- The calls made for the blocks of a write are those that the view makes. -/
lemma servedAll {full : Bool} {io : WriteIo} {L : List ℕ}
    (hint : ∀ m ∈ L, ∀ n ∈ L, toInt m = toInt n → m = n) :
    ∀ {l : List ℕ} {s : Pool} {v : FileView × ℕ}, (∀ n ∈ l, n ∈ L) → s.Of v L →
      ServedAll B known full io l s → FileView.ServedAll B known full io offset src l v := by
  intro l
  induction l with
  | nil => exact fun _ _ _ => trivial
  | cons n l ih =>
      rintro s v hl h ⟨hn, hrest⟩
      have hmem := hl n List.mem_cons_self
      refine ⟨fun hnone => ?_, ih (fun m hm => hl m (List.mem_cons_of_mem _ hm))
        (h.take hmem fun m hm => hint m hm n hmem) hrest⟩
      have hc : s.cached n = false := by rw [h.cached n hmem, hnone, Option.isSome_none]
      obtain ⟨h1, h2, h3⟩ := hn hc
      exact ⟨h1, h2, fun hz => h3 (h.free.trans hz)⟩

lemma takes {L : List ℕ} (hint : ∀ m ∈ L, ∀ n ∈ L, toInt m = toInt n → m = n) :
    ∀ {l : List ℕ} {s : Pool} {v : FileView × ℕ}, (∀ n ∈ l, n ∈ L) → s.Of v L →
      (s.takes l).Of (FileView.turns B known offset src l v) L := by
  intro l
  induction l with
  | nil => exact fun _ h => h
  | cons n l ih =>
      intro s v hl h
      have hmem := hl n List.mem_cons_self
      exact ih (fun m hm => hl m (List.mem_cons_of_mem _ hm)) (h.take hmem fun m hm =>
        hint m hm n hmem)

end Of

end Pool

/-! ### The calls of a write -/

/-- What a write on the file finds of the pool. -/
def FS.pool (cfg : Config) (fs : FS) (i : ℕ) : Pool :=
  ⟨fun n => fs.cache.isBlockCached cfg (inodeStr i) (toInt n), fs.cache.engine.freePages.length⟩

/-- **The backing calls that a write makes succeed**: those of the write that fills the hole before
the offset, and then its own. -/
def FS.WriteCallsOk (cfg : Config) (fs : FS) (i size offset : ℕ) (io fillIo : WriteIo) : Prop :=
  let known := fs.sizeOf i
  let hole := if known < offset then blocksOf cfg.ioBlockSize known offset else []
  let s := fs.pool cfg i
  s.ServedAll cfg.ioBlockSize known (poolFull cfg s.free) fillIo hole ∧
    (s.takes hole).ServedAll cfg.ioBlockSize known (poolFull cfg (s.takes hole).free) io
      (blocksOf cfg.ioBlockSize offset (offset + size))

instance (fs : FS) (i size offset : ℕ) (io fillIo : WriteIo) :
    Decidable (fs.WriteCallsOk cfg i size offset io fillIo) :=
  inferInstanceAs (Decidable (_ ∧ _))

namespace FS

variable {fs : FS} {c : ℕ → List UInt8} {i : ℕ} {path : Path}

/-- The blocks of a small file have numbers of their own. -/
lemma toInt_inj_of_blocks {B n m stop : ℕ} (hstop : stop ≤ 2 ^ 31 * B) (hn : n * B < stop)
    (hm : m * B < stop) (heq : toInt n = toInt m) : n = m := by
  have hn' : n < 2 ^ 31 := lt_of_mul_lt_mul_right (hn.trans_le hstop) (Nat.zero_le B)
  have hm' : m < 2 ^ 31 := lt_of_mul_lt_mul_right (hm.trans_le hstop) (Nat.zero_le B)
  rw [toInt_of_lt hn', toInt_of_lt hm'] at heq
  exact_mod_cast heq

/-- The calls that the write makes are those that the view of the file makes. -/
lemma WriteCallsOk.served (h : OnePage cfg) (hS : fs.Sound cfg) {size offset : ℕ} (hsize : 0 < size)
    (hlen : offset + size ≤ 2 ^ 31 * cfg.ioBlockSize) {io fillIo : WriteIo} (buf : Mem)
    (hok : fs.WriteCallsOk cfg i size offset io fillIo) :
    FileView.FillServed cfg (fs.sizeOf i) offset fillIo (fs.file cfg i, fs.free) ∧
      FileView.WriteServed cfg (fs.sizeOf i) offset (buf.read 0 size) io
        (FileView.fillTo cfg.ioBlockSize (fs.sizeOf i) offset (fs.file cfg i, fs.free)) := by
  have hB := h.pos
  obtain ⟨hfill, hwrite⟩ := hok
  set known := fs.sizeOf i with hknown
  set hole := if known < offset then blocksOf cfg.ioBlockSize known offset else [] with hhole
  -- the blocks of the hole and of the write are apart
  have hstop : ∀ n ∈ hole ++ blocksOf cfg.ioBlockSize offset (offset + size),
      n * cfg.ioBlockSize < offset + size := by
    intro n hn
    rcases List.mem_append.mp hn with hn | hn
    · rw [hhole] at hn
      split_ifs at hn with hlt
      · have := ((mem_blocksOf hB hlt).mp hn).1
        omega
      · cases hn
    · exact ((mem_blocksOf hB (by omega)).mp hn).1
  have hint : ∀ m ∈ hole ++ blocksOf cfg.ioBlockSize offset (offset + size),
      ∀ n ∈ hole ++ blocksOf cfg.ioBlockSize offset (offset + size), toInt m = toInt n → m = n :=
    fun m hm n hn => toInt_inj_of_blocks hlen (hstop m hm) (hstop n hn)
  have hof : (fs.pool cfg i).Of (fs.file cfg i, fs.free)
      (hole ++ blocksOf cfg.ioBlockSize offset (offset + size)) :=
    ⟨rfl, fun n _ => hS.isBlockCached_eq i (toInt n)⟩
  have hreplicate : known < offset →
      hole = blocksOf cfg.ioBlockSize known
        (known + (List.replicate (offset - known) (0 : UInt8)).length) := by
    intro hlt
    rw [hhole, if_pos hlt, List.length_replicate]
    congr 1
    omega
  refine ⟨fun hlt => ?_, ?_⟩
  · rw [FileView.WriteServed, ← hreplicate hlt]
    exact hof.servedAll hint (fun n hn => List.mem_append_left _ hn) hfill
  · have hfilled : ((fs.pool cfg i).takes hole).Of
        (FileView.fillTo cfg.ioBlockSize known offset (fs.file cfg i, fs.free))
        (hole ++ blocksOf cfg.ioBlockSize offset (offset + size)) := by
      rw [FileView.fillTo]
      split_ifs with hlt
      · rw [FileView.writeAll, ← hreplicate hlt]
        exact hof.takes hint fun n hn => List.mem_append_left _ hn
      · rw [hhole, if_neg hlt] at hof ⊢
        exact hof
    rw [FileView.WriteServed, Mem.length_read, ← hfilled.free]
    exact hfilled.servedAll hint (fun n hn => List.mem_append_right _ hn) hwrite

end FS

/-! ### What a write reports -/

/-- A read with backing calls that succeed returns the data at the offset. -/
def FS.ReadsAs (cfg : Config) (fs : FS) (path : Path) (i : ℕ) (data : List UInt8)
    (offset : ℕ) : Prop :=
  ∀ (buf : Mem) (fi : Option FileInfo) (io : ReadIo), FS.ReadHandle i fi → FS.ReadIo.Ok io →
    ∃ fs' buf', fs.lfsRead cfg path buf data.length offset fi io
        = some (fs', FS.writeResult cfg data.length, buf') ∧ buf'.read 0 data.length = data

/-- **What a write reports**: when it returns its size, all its bytes are read back; otherwise it
returns less, and every byte below the recorded size is stored. -/
def Reported (cfg : Config) (fs : FS) (path : Path) (i : ℕ) (r : ℤ) (buf : Mem)
    (size offset : ℕ) : Prop :=
  (r = size → fs.ReadsAs cfg path i (buf.read 0 size) offset) ∧
    (r ≠ size → r < size ∧ ∃ c : List UInt8, fs.sizeOf i = c.length ∧
      ∀ o k, 0 < k → o + k ≤ c.length → fs.ReadsAs cfg path i (Bytes.slice c o k) o)

namespace FileOp

/-- A write whose backing calls succeed as far as it makes any. -/
def WriteFine (cfg : Config) (fs : FS) : FileOp → Prop
  | write path _ size offset fi io fillIo => ∃ i, fs.disk.ino path = some i ∧ 0 < size ∧
      offset + size ≤ maxSize cfg.ioBlockSize ∧
      (fi.fh.ino = i ∧ fi.fh.writable = true ∧ fi.directIo = false) ∧
      fs.WriteCallsOk cfg i size offset io fillIo
  | _ => False

/-- A call whose backing calls succeed as far as they matter. -/
def Fine (cfg : Config) (fs : FS) (op : FileOp) : Prop := op.Proper cfg fs ∨ op.WriteFine cfg fs

end FileOp

namespace FS

variable {fs : FS} {c : ℕ → List UInt8} {i : ℕ} {path : Path}

/-- A read inside the contents returns them. -/
lemma Shows.readsAs (h : OnePage cfg) (hs : Keeps cfg fs c)
    (hi : fs.disk.ino path = some i) {o k : ℕ} (hk : 0 < k) (hin : o + k ≤ (c i).length) :
    fs.ReadsAs cfg path i (Bytes.slice (c i) o k) o := by
  have hB := h.pos
  have hlen : (Bytes.slice (c i) o k).length = k := by
    rw [Bytes.length_slice]
    omega
  have hword : o + k ≤ 2 ^ 64 := by
    have h1 := (hs.file i).size_le.trans (maxSize_le_offT _)
    omega
  intro buf fi io hfi hio
  obtain ⟨buf', hread, hbuf⟩ := (hs.file i).holds.read_within (hs.file i).bounded hB hk hin buf
  obtain ⟨-, hsome⟩ := hs.sound.lfsRead hB hi buf hk hword hfi hio
  rw [← hs.size] at hread
  obtain ⟨fs', hlfs, -⟩ := hsome _ _ hread
  rw [hlen]
  exact ⟨fs', buf', hlfs, hbuf⟩

/-- **One write** whose backing calls succeed as far as it makes any. -/
theorem Shows.write_fine (h : OnePage cfg) (hlru : cfg.applyLruEviction = false)
    (hs : Keeps cfg fs c) (hi : fs.disk.ino path = some i) (buf : Mem) {size offset : ℕ}
    (hsize : 0 < size) (hlen : offset + size ≤ maxSize cfg.ioBlockSize) {fi : FileInfo}
    (hfi : fi.fh.ino = i ∧ fi.fh.writable = true ∧ fi.directIo = false) {io fillIo : WriteIo}
    (hok : fs.WriteCallsOk cfg i size offset io fillIo) :
    ∃ fs', fs.lfsWrite cfg path buf size offset (some fi) io fillIo
      = some (fs', writeResult cfg size) ∧
      Disk.SameNames fs.disk fs'.disk ∧
      Keeps cfg fs' (Function.update c i (Bytes.write (c i) offset (buf.read 0 size))) := by
  have hne : buf.read 0 size ≠ [] := by
    rw [← List.length_pos_iff, Mem.length_read]
    exact hsize
  obtain ⟨hfill, hwrite⟩ := hok.served h hs.sound hsize (hlen.trans (maxSize_le _)) buf
  obtain ⟨fs', hlfs, -, ht, hs'⟩ := hs.write_served h hi buf hsize
    (hlen.trans ((maxSize_le_offT _).trans (by norm_num)))
      hfi hfill hwrite (enoughIfLru_of_off hlru _ _ _)
    (FileView.Kept.writeAt (s := (fs.file cfg i, fs.free)) (hs.file i) h.pos hne
      (by rw [Mem.length_read]; exact hlen))
  exact ⟨fs', hlfs, ht.names, hs'⟩

/-- The states reached by calls whose backing calls succeed as far as they matter. -/
abbrev ReachedFine (cfg : Config) : FS × (ℕ → List UInt8) → Prop :=
  Runs.Reach (FileOp.step cfg) (fun s op => op.Fine cfg s.1) (FS.Start cfg)

/-- Every file is kept in every state reached. -/
lemma keeps_of_reachedFine (h : OnePage cfg) (hlru : cfg.applyLruEviction = false)
    {s : FS × (ℕ → List UInt8)} (hs : ReachedFine cfg s) : Keeps cfg s.1 s.2 := by
  refine hs.invariant (P := fun s => Keeps cfg s.1 s.2) ?_ ?_
  · rintro _ ⟨d, hd, rfl⟩
    exact shows_new h d fun i => .bare (hd i)
  · intro s op s' hk hop hstep
    rcases hop with hop | hop
    · obtain ⟨fs', res, hrun, -, hs', -⟩ := hk.run h op hop (roomy_of_off hlru op)
      rw [FileOp.step, hrun, Option.map_some, Option.some.injEq] at hstep
      rw [← hstep]
      exact hs'
    · cases op with
      | write path buf size offset fi io fillIo =>
          obtain ⟨i, hi, hsize, hlen, hfi, hok⟩ := hop
          obtain ⟨fs', hrun, -, hs'⟩ := hk.write_fine h hlru hi buf hsize hlen hfi hok
          rw [FileOp.step, FileOp.run, hrun, Option.map_some, Option.map_some,
            Option.some.injEq] at hstep
          rw [← hstep, FileOp.logical, hi]
          exact hs'
      | getattr | read | truncate | fsync | clear => exact hop.elim

end FS

/-- What was written is read back. -/
lemma slice_write_self (c : List UInt8) (offset : ℕ) (src : List UInt8) :
    Bytes.slice (Bytes.write c offset src) offset src.length = src := by
  refine List.ext_getElem? fun j => ?_
  by_cases hj : j < src.length
  · rw [Bytes.getElem?_slice _ hj, Bytes.getElem?_write_of_mem c (by omega) (by omega),
      Nat.add_sub_cancel_left]
  · rw [List.getElem?_eq_none (by rw [Bytes.length_slice]; omega), List.getElem?_eq_none (by omega)]

/-- A result that is not the size is smaller. -/
lemma FS.writeResult_lt (herrno : 0 ≤ cfg.errno) {size : ℕ}
    (h : FS.writeResult cfg size ≠ size) : FS.writeResult cfg size < size := by
  by_cases hsmall : size < 2 ^ 31
  · exact absurd (FS.writeResult_of_lt hsmall) h
  · have hlt := toInt_lt (size : ℤ)
    rw [FS.writeResult]
    split_ifs <;> omega

/-- **A write is reported truthfully** in every state reached, when the backing calls that it makes
succeed. -/
theorem reported_of_reached {cfg : Config} (h : OnePage cfg) (hlru : cfg.applyLruEviction = false)
    (herrno : 0 ≤ cfg.errno) {s : FS × (ℕ → List UInt8)} (hs : FS.ReachedFine cfg s)
    {path : Path} {i : ℕ} (hi : s.1.disk.ino path = some i) (buf : Mem) {size offset : ℕ}
    (hsize : 0 < size) (hlen : offset + size ≤ maxSize cfg.ioBlockSize) {fi : FileInfo}
    (hfi : fi.fh.ino = i ∧ fi.fh.writable = true ∧ fi.directIo = false) {io fillIo : WriteIo}
    (hok : s.1.WriteCallsOk cfg i size offset io fillIo) :
    ∃ fs' r, s.1.lfsWrite cfg path buf size offset (some fi) io fillIo = some (fs', r) ∧
      Reported cfg fs' path i r buf size offset := by
  obtain ⟨fs', hwrite, hnames, hs'⟩ :=
    (FS.keeps_of_reachedFine h hlru hs).write_fine h hlru hi buf hsize hlen hfi hok
  have hi' : fs'.disk.ino path = some i := (hnames.ino path).trans hi
  have hread : (buf.read 0 size).length = size := Mem.length_read _ _ _
  have hne : buf.read 0 size ≠ [] := by rwa [← List.length_pos_iff, hread]
  have hc : Function.update s.2 i (Bytes.write (s.2 i) offset (buf.read 0 size)) i
      = Bytes.write (s.2 i) offset (buf.read 0 size) := Function.update_self _ _ _
  refine ⟨fs', _, hwrite, fun _ => ?_, fun hr => ⟨FS.writeResult_lt herrno hr, _, hs'.size i,
    fun o k hk hin => hs'.readsAs h hi' hk hin⟩⟩
  have hend : offset + size ≤ (Bytes.write (s.2 i) offset (buf.read 0 size)).length := by
    rw [Bytes.length_write _ _ hne, hread]
    exact le_max_right _ _
  have hback := hs'.readsAs h hi' hsize (hc ▸ hend)
  have hdata := slice_write_self (s.2 i) offset (buf.read 0 size)
  rw [hread] at hdata
  rwa [hc, hdata] at hback

/-- The state in which the file is mounted. -/
lemma reachedFine_mounted : FS.ReachedFine (.tiny 2 false)
    (⟨.new (.tiny 2 false), oneFile⟩, oneFile.bytes) :=
  .init ⟨oneFile, fun _ => Nat.zero_le _, rfl⟩

/-- Two new blocks with two free pages: nothing is read or written through, and these calls may
fail. -/
theorem reported_of_reached_twoBlocks : ∃ fs' r,
    FS.lfsWrite (.tiny 2 false) ⟨.new (.tiny 2 false), oneFile⟩ ["f"] abcd 8 0 (some handle)
        { pread := fun _ => .fail, pwrite := fun _ => .fail }
        { openRdonly := false } = some (fs', r) ∧
      Reported (.tiny 2 false) fs' ["f"] 1 r abcd 8 0 :=
  reported_of_reached (Config.onePage_tiny 2 false) rfl (by decide) reachedFine_mounted rfl abcd
    (by decide) (by decide) ⟨rfl, rfl, rfl⟩ (by decide +kernel)

/-- **A write whose backing file cannot be opened for reading returns its size**, and nothing is
stored. -/
theorem failed_write_unreported : ∃ fs' r,
    FS.lfsWrite (.tiny 2 false) ⟨.new (.tiny 2 false), oneFile⟩ ["f"] abcd 4 0 (some handle)
        { openRdonly := false } {} = some (fs', r) ∧
      ¬ Reported (.tiny 2 false) fs' ["f"] 1 r abcd 4 0 := by
  have hval : ((FS.lfsWrite (.tiny 2 false) ⟨.new (.tiny 2 false), oneFile⟩ ["f"]
      abcd 4 0 (some handle)
      { openRdonly := false } {}).bind fun w =>
        (w.1.lfsRead (.tiny 2 false) ["f"] abcd 4 0 none {}).map
        fun r => (w.2, r.2.1)) = some (4, 0) := by decide +kernel
  obtain ⟨⟨fs', r⟩, hwrite, hval⟩ := Option.bind_eq_some_iff.mp hval
  obtain ⟨⟨fs'', k, buf'⟩, hread, hk⟩ := Option.map_eq_some_iff.mp hval
  obtain ⟨hr, hk⟩ := Prod.mk.inj hk
  refine ⟨fs', r, hwrite, fun hrep => ?_⟩
  obtain ⟨fs1, buf1, hback, -⟩ := hrep.1 hr abcd none {} (fun _ hf => by cases hf) fun _ => rfl
  rw [Mem.length_read, FS.writeResult_of_lt (by norm_num)] at hback
  rw [hback, Option.some.injEq, Prod.mk.injEq, Prod.mk.injEq] at hread
  rw [← hread.2.1] at hk
  cases hk

end LazyFS
