import LazyFS.Guarantees.ReadYourWrites
import LazyFS.Model.Calls

/-!
**Reads through a handle.**

* `FileOp.Usual`, `Shows.run_usual`: the calls of a run; a write-back may fail, and the cache may be
  cleared.
* `FS.HandleOf`, `Shows.lfsOpen`: an open for reading leaves a descriptor of the file, and changes
  no file.
* `FS.ReadsRight`: a read returns the contents.
* `readsRight_of_handle`: it does, through the handle, after any writes, write-backs and clears,
  when the `pread`s that it makes succeed.
* `trunc_handle_fails`: a handle opened with `O_TRUNC` reads no block that is not cached.
-/

namespace LazyFS

open Engine

variable {cfg : Config}

namespace FileOp

/-- The calls of a run: those that go forward, write-backs whatever becomes of their calls, and
clears. -/
def Usual (cfg : Config) (fs : FS) : FileOp → Prop
  | fsync path _ _ => ∃ i, fs.disk.ino path = some i
  | clear => True
  | op => op.Forward cfg fs ∧ (cfg.applyLruEviction = true → op.Roomy cfg fs)

end FileOp

namespace FS

variable {fs : FS} {c : ℕ → List UInt8} {path : Path} {i : ℕ}

/-- **One call** of a run keeps every file along with its contents. -/
theorem Shows.run_usual (h : OnePage cfg) (hs : Holding cfg fs c) (op : FileOp)
    (hop : op.Usual cfg fs) :
    ∃ fs' res, op.run cfg fs = some (fs', res) ∧ Disk.SameNames fs.disk fs'.disk ∧
      Holding cfg fs' (op.logical fs.disk fs.disk.bytes c) := by
  cases op with
  | fsync path isdatasync io =>
      obtain ⟨i, hi⟩ := hop
      obtain ⟨fs', hsync, -, ht, hs'⟩ := hs.fsync hi (hs.file i).bounded isdatasync io
        fun disk1 hF _ => (hs.file i).cleaned h.pos hF (by split_ifs; exacts [.inr rfl, .inl rfl])
      exact ⟨fs', _, by rw [FileOp.run, hsync, Option.map_some], ht.names, hs'⟩
  | clear =>
      exact ⟨_, _, rfl, (hs.sound.clearAllCache h).2.1 ▸ .refl fs.disk,
        hs.clear h fun i => .bare _ _⟩
  | getattr | read | write | truncate => exact hs.run_forward h _ hop.1 hop.2

/-! ### Opens -/

/-- The descriptor of a handle that was opened for reading. -/
def openedFd (i : ℕ) (flags : Disk.OpenFlags) : Fd :=
  if flags.trunc then ⟨i, false, true⟩ else ⟨i, true, flags.writable⟩

/-- A truncation to nothing writes nothing. -/
lemma lfsTruncate_zero (fi : Option FileInfo) (io fillIo : WriteIo) :
    fs.lfsTruncate cfg path 0 fi io fillIo = fs.lfsTruncate cfg path 0 fi { now := io.now } {} := by
  simp only [FS.lfsTruncate, FS.changeSize, Nat.not_lt_zero, if_false]

/-- **`lfs_open`** for reading, on a file that is empty when the open truncates it. -/
theorem Shows.lfsOpen (h : OnePage cfg) (hs : Holding cfg fs c) (hi : fs.disk.ino path = some i)
    {flags : Disk.OpenFlags} (hread : flags.readable = true)
    (hempty : flags.trunc = true → fs.sizeOf i = 0) (io fillIo : WriteIo) :
    ∃ fs', fs.lfsOpen cfg path flags io fillIo = some (fs', 0, some (openedFd i flags)) ∧
      Disk.SameNames fs.disk fs'.disk ∧ Holding cfg fs' c := by
  obtain ⟨fs1, st, hget, -, hopen, hs1⟩ := hs.getattr hi
  have hfd : fs.openFile path flags = some (openedFd i flags) := by
    rw [FS.openFile, openedFd, Disk.openWrite, hi, hread]
    split_ifs <;> rfl
  rw [FS.lfsOpen, hfd]
  simp only [hget, Option.bind_eq_bind, Option.bind_some]
  cases htrunc : flags.trunc with
  | false =>
      exact ⟨fs1, by rw [if_neg Bool.false_ne_true], hopen.touched.names, hs1⟩
  | true =>
      have hi1 : fs1.disk.ino path = some i := (hopen.touched.names.ino path).trans hi
      have hnil : (c i).length = 0 := by rw [← hs.size, hempty htrunc]
      have hfi : TruncateHandle i (some ⟨openedFd i flags, false⟩) := fun f hf => by
        obtain rfl := Option.some.inj hf
        rw [openedFd, if_pos htrunc]
        exact ⟨rfl, rfl, rfl⟩
      have hio : WriteIo.Ok { now := io.now } := ⟨rfl, fun _ => rfl, fun _ => rfl⟩
      have hfillIo : WriteIo.Ok {} := ⟨rfl, fun _ => rfl, fun _ => rfl⟩
      obtain ⟨fs2, r, hcut, -, ht, hs2⟩ :=
        hs1.truncate h hi1 (k := 0) (by norm_num) (by omega) hfi hio
        hfillIo (fun hlt => absurd hlt (Nat.not_lt_zero _))
          (FileView.Whole.resize (s := (fs1.file cfg i, fs1.free)) (hs1.file i)
            h.pos (.inl hnil.symm))
      have hc : Bytes.resize (c i) 0 = c i := by
        rw [← hnil, Bytes.resize_length]
      rw [hc, Function.update_eq_self] at hs2
      rw [if_pos rfl, lfsTruncate_zero, hcut]
      exact ⟨fs2, rfl, hopen.touched.names.trans ht.names, hs2⟩

/-- The read of `size` bytes at `offset` returns those of the contents `c`. -/
def ReadsRight (cfg : Config) (fs : FS) (path : Path) (c : List UInt8) (buf : Mem) (size offset : ℕ)
    (fi : FileInfo) (io : ReadIo) : Prop :=
  ∃ fs' buf', fs.lfsRead cfg path buf size offset (some fi) io
      = some (fs', ((min size (c.length - offset) : ℕ) : ℤ), buf') ∧
    buf'.read 0 (min size (c.length - offset)) = Bytes.slice c offset size

/-- The states that the calls of a run reach. -/
abbrev ReachedUsual (cfg : Config) : FS × (ℕ → List UInt8) → Prop :=
  Runs.Reach (FileOp.step cfg) (fun s op => op.Usual cfg s.1) fun s => ∃ d :
    Disk, s = (⟨.new cfg, d⟩, d.bytes)

/-- A call of a run, as a step. -/
lemma Shows.step_usual (h : OnePage cfg) {s : FS × (ℕ → List UInt8)} (hs : Holding cfg s.1 s.2)
    {op : FileOp} (hop : op.Usual cfg s.1) :
    ∃ s', FileOp.step cfg s op = some s' ∧ Disk.SameNames s.1.disk s'.1.disk ∧
    Holding cfg s'.1 s'.2 := by
  obtain ⟨fs', res, hrun, hnames, hs'⟩ := hs.run_usual h op hop
  exact ⟨_, by rw [FileOp.step, hrun, Option.map_some], hnames, hs'⟩

lemma holding_of_reached (h : OnePage cfg) {s : FS × (ℕ → List UInt8)} (hs : ReachedUsual cfg s) :
    Holding cfg s.1 s.2 := by
  refine hs.invariant (P := fun s => Holding cfg s.1 s.2) ?_ ?_
  · rintro _ ⟨d, rfl⟩
    exact shows_new h d fun i => .bare _ _
  · intro s op s' hk hop hstep
    obtain ⟨t, ht, -, hkt⟩ := hk.step_usual h hop
    rw [hstep, Option.some.injEq] at ht
    exact ht ▸ hkt

end FS

/-- **A handle opened for reading reads the file**: after an open in any state that is reached, and
any calls that follow, a read through the handle returns the contents, when the `pread`s that it
makes succeed. -/
theorem readsRight_of_handle (h : OnePage cfg) {s : FS × (ℕ → List UInt8)}
    (hs : FS.ReachedUsual cfg s) {path : Path} {i : ℕ} (hi : s.1.disk.ino path = some i)
    {flags : Disk.OpenFlags} (hread : flags.readable = true)
    (hempty : flags.trunc = true → s.1.sizeOf i = 0) (io fillIo : WriteIo) :
    ∃ fs' fd, s.1.lfsOpen cfg path flags io fillIo = some (fs', 0, some fd) ∧
      ∀ ops : List FileOp,
        Runs.Guarded (FileOp.step cfg) (fun s op => op.Usual cfg s.1) (fs', s.2) ops →
        ∃ t, Runs.run (FileOp.step cfg) (fs', s.2) ops = some t ∧
          ∀ (buf : Mem) (size offset : ℕ) (readIo : ReadIo), InReach cfg.ioBlockSize size offset →
            t.1.PreadsFine cfg i fd readIo size offset →
            t.1.ReadsRight cfg path (t.2 i) buf size offset ⟨fd, false⟩ readIo := by
  obtain ⟨fs', hopen, hnames, hs'⟩ :=
    (FS.holding_of_reached h hs).lfsOpen h hi hread hempty io fillIo
  refine ⟨fs', _, hopen, fun ops hops => ?_⟩
  -- the path keeps naming the file
  obtain ⟨t, hrun, ht, hit⟩ := Runs.run_of_guarded
    (P := fun t => FS.Holding cfg t.1 t.2 ∧ t.1.disk.ino path = some i)
    (fun t op hP hop => by
      obtain ⟨t', hstep, hnames', ht'⟩ := hP.1.step_usual h hop
      exact ⟨t', hstep, ht', (hnames'.ino path).trans hP.2⟩)
    ⟨hs', (hnames.ino path).trans hi⟩ hops
  refine ⟨t, hrun, fun buf size offset readIo hr hio => ?_⟩
  have hfd : ((some (⟨FS.openedFd i flags, false⟩ : FileInfo)).map FileInfo.fh).or
      (t.1.disk.openRead path) = some (FS.openedFd i flags) := rfl
  obtain ⟨fs'', buf', hlfs, hbuf, -⟩ := ht.read_served h hit buf hr hfd hio
  exact ⟨fs'', buf', hlfs, hbuf⟩

/-! ### A write, a write-back and a clear -/

/-- The calls made between the open and the read. -/
def writeSyncClear : List FileOp := [writeAbcd, .fsync ["f"] false {}, .clear]

/-- The mounted directory. -/
def mountedTiny : FS := ⟨.new (.tiny 2 false), oneFile⟩

/-- `O_RDWR`, with or without `O_TRUNC`. -/
def rdwr (trunc : Bool) : Disk.OpenFlags := { readable := true, writable := true, trunc := trunc }

/-- The file is opened for reading and writing. -/
def openRdwr (trunc : Bool) : Option (FS × ℤ × Option Fd) :=
  mountedTiny.lfsOpen (.tiny 2 false) ["f"] (rdwr trunc) {} {}

/-- The path names the file at every call. -/
lemma guarded_writeSyncClear {fs' : FS} {fd : Fd}
    (hopen : openRdwr false = some (fs', 0, some fd)) :
    Runs.Guarded (FileOp.step (.tiny 2 false)) (fun s op => op.Usual (.tiny 2 false) s.1)
      (fs', oneFile.bytes) writeSyncClear := by
  have hopened : (openRdwr false).map (fun r => r.1.disk.ino ["f"]) = some (some 1) := by
    decide +kernel
  have hwritten : (openRdwr false).bind (fun r =>
      (FileOp.step (.tiny 2 false) (r.1, oneFile.bytes) writeAbcd).map fun s => s.1.disk.ino ["f"])
        = some (some 1) := by decide +kernel
  rw [hopen, Option.map_some, Option.some.injEq] at hopened
  rw [hopen, Option.bind_some] at hwritten
  refine ⟨⟨⟨1, hopened, ⟨by decide, by decide, by decide, by decide⟩, ⟨rfl, rfl, rfl⟩,
    ⟨rfl, fun _ => rfl, fun _ => rfl⟩, ⟨rfl, fun _ => rfl, fun _ => rfl⟩⟩,
    fun hlru => by cases hlru⟩, fun s hs => ⟨⟨1, ?_⟩, fun _ _ => ⟨trivial, fun _ _ => trivial⟩⟩⟩
  rw [hs, Option.map_some, Option.some.injEq] at hwritten
  exact hwritten

/-- Opened without `O_TRUNC`, the handle reads the block from the backing file after the clear. -/
theorem readsRight_of_handle_writeSyncClear : ∃ fs' fd t, openRdwr false = some (fs', 0, some fd) ∧
    Runs.run (FileOp.step (.tiny 2 false)) (fs', oneFile.bytes) writeSyncClear = some t ∧
    t.1.ReadsRight (.tiny 2 false) ["f"] (t.2 1) abcd 4 0 ⟨fd, false⟩ {} := by
  obtain ⟨fs', fd, hopen, hall⟩ := readsRight_of_handle (Config.onePage_tiny 2 false)
    (s := (mountedTiny, oneFile.bytes)) (.init ⟨oneFile, rfl⟩) (i := 1)
    (show mountedTiny.disk.ino ["f"] = some 1 from rfl) (show (rdwr false).readable = true from rfl)
    (fun hc => by cases hc) {} {}
  obtain ⟨t, hrun, hread⟩ := hall writeSyncClear (guarded_writeSyncClear hopen)
  have hfd : (openRdwr false).bind (fun r => r.2.2) = some ⟨1, true, true⟩ := by decide +kernel
  rw [show openRdwr false = _ from hopen, Option.bind_some, Option.some.injEq] at hfd
  refine ⟨fs', fd, t, hopen, hrun, hread abcd 4 0 {}
    ⟨by decide, by decide, by decide, by decide⟩ ?_⟩
  rw [hfd]
  exact fun _ => FS.preads_of_forall (fun _ => ⟨rfl, rfl, rfl⟩) _ _

/-- **Opened with `O_TRUNC`, the handle does not**: the backing file was opened for writing only,
and the read returns an error instead of the four bytes of the file. -/
theorem trunc_handle_fails : ∃ fs' fd t, openRdwr true = some (fs', 0, some fd) ∧
    Runs.run (FileOp.step (.tiny 2 false)) (fs', oneFile.bytes) writeSyncClear = some t ∧
    ¬ t.1.ReadsRight (.tiny 2 false) ["f"] (t.2 1) abcd 4 0 ⟨fd, false⟩ {} := by
  have hval : (openRdwr true).bind (fun r => r.2.2.bind fun fd =>
      (Runs.run (FileOp.step (.tiny 2 false)) (r.1, oneFile.bytes) writeSyncClear).bind fun t =>
        (t.1.lfsRead (.tiny 2 false) ["f"] abcd 4 0 (some ⟨fd, false⟩) {}).map fun x =>
          (r.2.1, x.2.1, (t.2 1).length)) = some (0, -2, 4) := by decide +kernel
  obtain ⟨⟨fs', r, fd?⟩, hopen, hval⟩ := Option.bind_eq_some_iff.mp hval
  obtain ⟨fd, hfd, hval⟩ := Option.bind_eq_some_iff.mp hval
  obtain ⟨t, hrun, hval⟩ := Option.bind_eq_some_iff.mp hval
  obtain ⟨⟨fs'', k, buf'⟩, hread, hval⟩ := Option.map_eq_some_iff.mp hval
  obtain ⟨rfl, hk⟩ := Prod.mk.inj hval
  obtain ⟨rfl, -⟩ := Prod.mk.inj hk
  dsimp only at hfd
  rw [hfd] at hopen
  refine ⟨fs', fd, t, hopen, hrun, ?_⟩
  rintro ⟨fs1, buf1, hback, -⟩
  rw [hread, Option.some.injEq, Prod.mk.injEq, Prod.mk.injEq] at hback
  omega

end LazyFS
