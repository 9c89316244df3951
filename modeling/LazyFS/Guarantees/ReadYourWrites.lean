import LazyFS.File.Large
import LazyFS.File.Kept

/-!
**Read your writes**: files read as plain byte arrays, whatever the number of pages.

* `FileOp.Forward`: writes, reads and write-backs of the first blocks of files of any size, and
  truncations that grow.
* `FS.ReadsBack`: `lfs_getattr` and `lfs_read` show the given contents.
* `Whole.run`: each call succeeds and keeps the files along with their contents.
* `readsBack_of_run`: after every run the files are shown with their contents.
-/

namespace LazyFS

open Engine

variable {cfg : Config}

/-- A request of less than `2^31` bytes at an offset in the first `2^31` blocks. -/
structure InReach (B size offset : ℕ) : Prop where
  size_pos : 0 < size
  size_lt : size < 2 ^ 31
  offset_lt : offset < 2 ^ 31 * B
  offset_offT : offset < 2 ^ 63

/-- The requests of less than `2^31` bytes end in the first `2^32 - 1` blocks. -/
lemma end_le_span {B size offset : ℕ} (hB : 2 ≤ B) (hsize : size ≤ 2 ^ 31)
    (hoff : offset ≤ 2 ^ 31 * B) :
    offset + size ≤ FileView.span B := by
  rw [FileView.span]
  omega

lemma InReach.end_le {B size offset : ℕ} (h : InReach B size offset) (hB : 2 ≤ B) :
    offset + size ≤ FileView.span B := end_le_span hB h.size_lt.le h.offset_lt.le

lemma InReach.end_le_word {B size offset : ℕ} (h : InReach B size offset) :
    offset + size ≤ 2 ^ 64 := by
  have h1 := h.size_lt
  have h2 := h.offset_offT
  omega

/-- Calls on the paths of regular files, with handles that allow what the call needs and backing
calls that succeed in full; the contents are never cut. -/
def FileOp.Forward (cfg : Config) (fs : FS) : FileOp → Prop
  | getattr path => ∃ i, fs.disk.ino path = some i
  | read path _ size offset fi io => ∃ i, fs.disk.ino path = some i ∧
      InReach cfg.ioBlockSize size offset ∧ FS.ReadHandle i fi ∧ FS.ReadIo.Ok io
  | write path _ size offset fi io fillIo => ∃ i, fs.disk.ino path = some i ∧
      InReach cfg.ioBlockSize size offset ∧
      (fi.fh.ino = i ∧ fi.fh.writable = true ∧ fi.directIo = false) ∧ io.Ok ∧ fillIo.Ok
  | truncate path n fi io fillIo => ∃ i, fs.disk.ino path = some i ∧ n < 2 ^ 63 ∧
      (n = fs.sizeOf i ∨ fs.sizeOf i ≤ n ∧ n < fs.sizeOf i + 2 ^ 31 ∧
        fs.sizeOf i < 2 ^ 31 * cfg.ioBlockSize) ∧ FS.TruncateHandle i fi ∧ io.Ok ∧ fillIo.Ok
  | fsync path _ io => ∃ i, fs.disk.ino path = some i ∧ io.Ok ∧ io.ftruncateOk = true
  | clear => False

/-- The file at `path` is shown with the contents `c`. -/
structure FS.ReadsBack (cfg : Config) (fs : FS) (path : Path) (i : ℕ) (c : List UInt8) : Prop where
  size : ∃ fs' st, fs.lfsGetattr cfg path = some (fs', .reg st) ∧ st.stSize = c.length
  bytes : ∀ (buf : Mem) (size offset : ℕ) (fi : Option FileInfo) (io : ReadIo),
    InReach cfg.ioBlockSize size offset → FS.ReadHandle i fi → FS.ReadIo.Ok io →
    ∃ fs' buf', fs.lfsRead cfg path buf size offset fi io
        = some (fs', ((min size (c.length - offset) : ℕ) : ℤ), buf') ∧
      buf'.read 0 (min size (c.length - offset)) = Bytes.slice c offset size

/-- Every file is the contents in its first blocks. -/
abbrev FS.Holding (cfg : Config) (fs : FS) (c : ℕ → List UInt8) : Prop :=
  FS.Shows cfg (FileView.Whole cfg.ioBlockSize) fs c

variable {fs : FS} {c : ℕ → List UInt8} {path : Path} {i : ℕ}

/-- `lfs_read` returns the contents when the `pread`s that it makes succeed, and changes no file. -/
lemma FS.Shows.read_served (h : OnePage cfg) (hs : FS.Holding cfg fs c)
    (hi : fs.disk.ino path = some i) (buf : Mem) {size offset : ℕ}
    (hr : InReach cfg.ioBlockSize size offset) {fi : Option FileInfo} {io : ReadIo} {fd : Fd}
    (hfd : (fi.map FileInfo.fh).or (fs.disk.openRead path) = some fd)
    (hio : fs.PreadsFine cfg i fd io size offset) :
    ∃ fs' buf', fs.lfsRead cfg path buf size offset fi io
        = some (fs', ((min size ((c i).length - offset) : ℕ) : ℤ), buf') ∧
      buf'.read 0 (min size ((c i).length - offset)) = Bytes.slice (c i) offset size ∧
      Disk.SameNames fs.disk fs'.disk ∧ FS.Holding cfg fs' c := by
  obtain ⟨-, hsome⟩ := hs.sound.lfsRead_served h.pos hi buf hr.size_pos hr.end_le_word hfd hio
  obtain ⟨buf', hread, hbuf⟩ := (hs.file i).read h.pos hr.size_pos (hr.end_le h.two_le) buf
  rw [← hs.size] at hread
  obtain ⟨fs', hlfs, ht, hfile, -⟩ := hsome _ _ hread
  have hsmall : min size ((c i).length - offset) < 2 ^ 31 := (min_le_left _ _).trans_lt hr.size_lt
  rw [hs.size, FS.writeResult_of_lt hsmall] at hlfs
  refine ⟨fs', buf', hlfs, hbuf, ht.names, hs.unchanged ht ?_⟩
  rw [hfile]
  exact hs.file i

/-- The same, when all its calls succeed. -/
lemma FS.Shows.read_whole (h : OnePage cfg) (hs : FS.Holding cfg fs c)
    (hi : fs.disk.ino path = some i) (buf : Mem) {size offset : ℕ}
    (hr : InReach cfg.ioBlockSize size offset) {fi : Option FileInfo} (hfi : FS.ReadHandle i fi)
    {io : ReadIo} (hio : FS.ReadIo.Ok io) :
    ∃ fs' buf', fs.lfsRead cfg path buf size offset fi io
        = some (fs', ((min size ((c i).length - offset) : ℕ) : ℤ), buf') ∧
      buf'.read 0 (min size ((c i).length - offset)) = Bytes.slice (c i) offset size ∧
      Disk.SameNames fs.disk fs'.disk ∧ FS.Holding cfg fs' c := by
  obtain ⟨fd, hfd, hfine⟩ := FS.exists_preadsFine cfg hi hfi hio size offset
  exact hs.read_served h hi buf hr hfd hfine

/-- The files are shown with their contents. -/
lemma FS.Shows.readsBack (h : OnePage cfg) (hs : FS.Holding cfg fs c)
    (hi : fs.disk.ino path = some i) : fs.ReadsBack cfg path i (c i) := by
  refine ⟨?_, fun buf size offset fi io hr hfi hio => ?_⟩
  · obtain ⟨fs', st, hget, hst, -⟩ := hs.getattr hi
    exact ⟨fs', st, hget, hst⟩
  · obtain ⟨fs', buf', hread, hbuf, -⟩ := hs.read_whole h hi buf hr hfi hio
    exact ⟨fs', buf', hread, hbuf⟩

/-- **One call**: it succeeds, keeps every file along with its contents, and renames none. -/
theorem FS.Shows.run_forward (h : OnePage cfg) (hs : FS.Holding cfg fs c) (op : FileOp)
    (hop : op.Forward cfg fs) (hroom : cfg.applyLruEviction = true → op.Roomy cfg fs) :
    ∃ fs' res, op.run cfg fs = some (fs', res) ∧ Disk.SameNames fs.disk fs'.disk ∧
      FS.Holding cfg fs' (op.logical fs.disk fs.disk.bytes c) := by
  have hB := h.pos
  -- what each call does to the files shown
  cases op with
  | getattr path =>
      obtain ⟨i, hi⟩ := hop
      obtain ⟨fs', st, hget, -, hopen, hs'⟩ := hs.getattr hi
      exact ⟨fs', _, by rw [FileOp.run, hget, Option.map_some], hopen.touched.names, hs'⟩
  | read path buf size offset fi io =>
      obtain ⟨i, hi, hr, hfi, hio⟩ := hop
      obtain ⟨fs', buf', hread, -, hnames, hs'⟩ := hs.read_whole h hi buf hr hfi hio
      exact ⟨fs', _, by rw [FileOp.run, hread, Option.map_some], hnames, hs'⟩
  | write path buf size offset fi io fillIo =>
      obtain ⟨i, hi, hr, hfi, hio, hfillIo⟩ := hop
      have hlen : (buf.read 0 size).length = size := Mem.length_read _ _ _
      have hne : buf.read 0 size ≠ [] := by
        rw [← List.length_pos_iff, hlen]
        exact hr.size_pos
      obtain ⟨fs', hwrite, -, ht, hs'⟩ :=
        hs.write h hi buf hr.size_pos hr.end_le_word hfi hio hfillIo
        (FS.enoughIfLru_of_roomy fun hlru => by
          rw [← hs.size]
          exact hroom hlru i hi)
        (FileView.Whole.writeAt (s := (fs.file cfg i, fs.free)) (hs.file i) hB hne
          (by rw [hlen]; exact hr.end_le h.two_le))
      refine ⟨fs', _, by rw [FileOp.run, hwrite, Option.map_some], ht.names, ?_⟩
      rw [FileOp.logical, hi]
      exact hs'
  | truncate path n fi io fillIo =>
      obtain ⟨i, hi, hoff, hgrow, hfi, hio, hfillIo⟩ := hop
      rw [hs.size] at hgrow
      have hfill : n = (c i).length ∨ (c i).length ≤ n ∧ n ≤ FileView.span cfg.ioBlockSize := by
        refine hgrow.imp_right fun hn => ⟨hn.1, ?_⟩
        have := end_le_span h.two_le (show n - (c i).length ≤ 2 ^ 31 by omega) hn.2.2.le
        omega
      obtain ⟨fs', r, htrunc, -, ht, hs'⟩ := hs.truncate h hi (k := n) (by omega) (by omega) hfi hio
        hfillIo (fun hlt => FS.enoughIfLru_of_roomy fun hlru => by
          rw [← hs.size] at hlt ⊢
          exact hroom hlru i hi hlt)
        (FileView.Whole.resize (s := (fs.file cfg i, fs.free)) (hs.file i) hB hfill)
      refine ⟨fs', _, by rw [FileOp.run, htrunc, Option.map_some], ht.names, ?_⟩
      rw [FileOp.logical, hi]
      exact hs'
  | fsync path isdatasync io =>
      obtain ⟨i, hi, -⟩ := hop
      obtain ⟨fs', hsync, -, ht, hs'⟩ := hs.fsync hi (hs.file i).bounded isdatasync io
        fun disk1 hF _ => (hs.file i).cleaned hB hF (by split_ifs; exacts [.inr rfl, .inl rfl])
      exact ⟨fs', _, by rw [FileOp.run, hsync, Option.map_some], ht.names, hs'⟩
  | clear => exact hop.elim

/-- **Read your writes.** Every run of calls succeeds, whatever the number of pages, and after it
every file is shown with its contents. -/
theorem readsBack_of_run (h : OnePage cfg) (hlru : cfg.applyLruEviction = false) (d : Disk)
    {ops : List FileOp}
    (hops : Runs.Guarded (FileOp.step cfg) (fun s op => op.Forward cfg s.1)
      (⟨.new cfg, d⟩, d.bytes) ops) :
    ∃ s, Runs.run (FileOp.step cfg) (⟨.new cfg, d⟩, d.bytes) ops = some s ∧
      ∀ path i, s.1.disk.ino path = some i → s.1.ReadsBack cfg path i (s.2 i) := by
  obtain ⟨s, hrun, hs⟩ := Runs.run_of_guarded (P := fun s => FS.Holding cfg s.1 s.2)
    (fun s op hs hop => by
      obtain ⟨fs', res, hrun, -, hs'⟩ := hs.run_forward h op hop (FS.roomy_of_off hlru op)
      exact ⟨_, by rw [FileOp.step, hrun, Option.map_some], hs'⟩)
    (FS.shows_new h d fun i => .bare _ _) hops
  exact ⟨s, hrun, fun path i hi => hs.readsBack h hi⟩

/-- A write of a block and its read. -/
theorem readsBack_writeAbcd : ∃ s,
    Runs.run (FileOp.step (.tiny 2 false)) (⟨.new (.tiny 2 false), oneFile⟩, oneFile.bytes)
    [writeAbcd]
        = some s ∧
      ∀ path i, s.1.disk.ino path = some i → s.1.ReadsBack (.tiny 2 false) path i (s.2 i) :=
  readsBack_of_run (Config.onePage_tiny 2 false) rfl oneFile
    ⟨⟨1, by decide, ⟨by decide, by decide, by decide, by decide⟩, ⟨rfl, rfl, rfl⟩,
      ⟨rfl, fun _ => rfl, fun _ => rfl⟩, ⟨rfl, fun _ => rfl, fun _ => rfl⟩⟩, fun _ _ => trivial⟩

end LazyFS
