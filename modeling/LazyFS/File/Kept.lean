import LazyFS.File.Ops

/-!
Files of at most `2^31` blocks, over every run of calls that succeed.

* `FileView.Kept`: a file has its contents, and its clean blocks are in the backing file.
* `FileView.SyncFine`: the calls of a write-back that matter succeed; `Kept.synced`: the backing
  file is then the contents.
* `FileOp.Proper`: the calls of the file system; `Shows.run`: each of them succeeds and keeps every
  file along with its contents.
* `FS.step`, `FS.reach_shows`: the same for all runs, any pool, with eviction off.
-/

namespace LazyFS

open Engine

variable {cfg : Config}

/-- The largest size of a file: `2^31` blocks, which are counted in an `int`, and an `off_t`. -/
def maxSize (B : ℕ) : ℕ := min (2 ^ 31 * B) (2 ^ 63)

lemma maxSize_le (B : ℕ) : maxSize B ≤ 2 ^ 31 * B := min_le_left _ _

lemma maxSize_le_offT (B : ℕ) : maxSize B ≤ 2 ^ 63 := min_le_right _ _

namespace FileView

/-- A file of at most `2^31` blocks with the contents `c`, whose clean blocks are in the backing
file. -/
structure Kept (B : ℕ) (c : List UInt8) (f : FileView) : Prop where
  holds : Holds B c f
  bounded : Bounded B f
  clean : Clean B c f
  numbered : Numbered f
  size_le : c.length ≤ maxSize B
  disk_le : f.disk.length ≤ maxSize B

/-- A write-back of a file of a given size writes every dirty block, and leaves nothing past the
end: a dirty block needs the calls to succeed, and so does a longer backing file, or a block with a
readable end past the end of the file. -/
structure SyncFine (B size : ℕ) (io : SyncIo) (f : FileView) : Prop where
  written : ∀ b v, f.blocks b = some v → v.dirty = true → io.Ok
  cut : io.openOk = true ∧ io.ftruncateOk = true ∨ f.disk.length ≤ size ∧
    ∀ (b : ℤ) (v : BlockView), f.blocks b = some v → v.dirty = true →
    b * B + v.readableTo + 1 ≤ size

namespace Kept

variable {B : ℕ} {c disk' : List UInt8} {f : FileView} {s : FileView × ℕ}

lemma small (h : Kept B c f) : c.length ≤ 2 ^ 31 * B := h.size_le.trans (maxSize_le B)

lemma bare (h : c.length ≤ maxSize B) : Kept B c (.bare c) :=
  ⟨holds_bare, bounded_bare, clean_bare, numbered_bare, h, h⟩

lemma writeAt (h : Kept B c s.1) (hB : 0 < B) {offset : ℕ} {src : List UInt8} (hs : src ≠ [])
    (hlen : offset + src.length ≤ maxSize B) :
    Kept B (Bytes.write c offset src) (FileView.writeAt B c.length offset src s).1 := by
  have hle := maxSize_le B
  have hsize : (Bytes.write c offset src).length ≤ maxSize B := by
    rw [Bytes.length_write _ _ hs]
    exact max_le h.size_le hlen
  have hbig : (Bytes.write c offset src).length ≤ 2 ^ 32 * B := by omega
  exact ⟨h.holds.writeAt hB hs hbig, h.bounded.writeAt hB hs, h.clean.writeAt hB hs hbig,
    h.numbered.writeAt hB hs (hlen.trans hle), hsize, length_disk_writeAt hB hs h.disk_le hlen⟩

lemma resize (h : Kept B c s.1) (hB : 0 < B) {n : ℕ} (hn : n ≤ maxSize B) :
    Kept B (Bytes.resize c n) (FileView.fillTo B c.length n s).1 := by
  have hle := maxSize_le B
  exact ⟨h.holds.resize hB (by omega), h.bounded.fillTo hB, h.clean.resize hB (by omega),
    h.numbered.fillTo hB (hn.trans hle), by rw [Bytes.length_resize]; exact hn,
    length_disk_fillTo hB h.disk_le hn⟩

/-- **The backing file is the contents** after a write-back whose calls that matter succeed. -/
theorem synced (h : Kept B c f) {io : SyncIo} (hio : SyncFine B c.length io f)
    (hF : Flushed B f disk')
    (hD : io.Ok → (∀ b v, f.blocks b = some v → v.dirty = true → 0 ≤ b) → Durable B f disk') :
    (if io.openOk && io.ftruncateOk then Bytes.resize disk' c.length else disk') = c := by
  have hdur : Durable B f disk' := by
    intro n v j hv hd hj
    exact hD (hio.written n v hv hd) (fun b w hw _ => h.numbered b (by rw [hw]; simp))
      n v j hv hd hj
  have hall := h.holds.durable h.clean h.small hF hdur
  split_ifs with hcut
  · exact resize_eq hall
  · refine eq_of_length_le hall ?_
    rcases hio.cut with ⟨h1, h2⟩ | ⟨h1, h2⟩
    · rw [h1, h2] at hcut
      exact absurd rfl hcut
    · exact hF.length_le _ h1 h2

/-- A file that was written back. -/
lemma cleaned (h : Kept B c f) : Kept B c (f.cleaned c) :=
  ⟨h.holds.cleaned_self, h.bounded.cleaned c, clean_cleaned_self, h.numbered.cleaned c,
    h.size_le, h.size_le⟩

end Kept

end FileView

/-- The calls of the file system: on the path of a regular file, on handles of that file, at
positions of its first `2^31` blocks, with backing calls that succeed. -/
def FileOp.Proper (cfg : Config) (fs : FS) : FileOp → Prop
  | getattr path => ∃ i, fs.disk.ino path = some i
  | read path _ size offset fi io => ∃ i, fs.disk.ino path = some i ∧ 0 < size ∧
      offset + size ≤ 2 ^ 63 ∧ FS.ReadHandle i fi ∧ FS.ReadIo.Ok io
  | write path _ size offset fi io fillIo => ∃ i, fs.disk.ino path = some i ∧ 0 < size ∧
      offset + size ≤ maxSize cfg.ioBlockSize ∧
      (fi.fh.ino = i ∧ fi.fh.writable = true ∧ fi.directIo = false) ∧ io.Ok ∧ fillIo.Ok
  | truncate path n fi io fillIo => ∃ i, fs.disk.ino path = some i ∧ n < fs.sizeOf i + 2 ^ 31 ∧
      n ≤ maxSize cfg.ioBlockSize ∧ FS.TruncateHandle i fi ∧ io.Ok ∧ fillIo.Ok
  | fsync path _ io => ∃ i, fs.disk.ino path = some i ∧
      (fs.file cfg i).SyncFine cfg.ioBlockSize (fs.sizeOf i) io
  | clear => True

/-- A call that does not write to the file `i`, and clears nothing. -/
def FileOp.Spares (d : Disk) (i : ℕ) : FileOp → Prop
  | .write path .. | .truncate path .. => d.ino path ≠ some i
  | .clear => False
  | _ => True

/-- The contents of a file that is spared. -/
lemma FileOp.logical_of_spares {op : FileOp} {d : Disk} {i : ℕ} (h : op.Spares d i)
    (restored c : ℕ → List UInt8) : op.logical d restored c i = c i := by
  cases op with
  | write path | truncate path =>
      rw [FileOp.logical]
      cases hj : d.ino path with
      | none => rfl
      | some j =>
          have hne : i ≠ j := fun hij => h (by rw [hj, hij])
          exact Function.update_of_ne hne _ _
  | clear => exact h.elim
  | getattr | read | fsync => rfl

namespace FS

variable {fs : FS} {c : ℕ → List UInt8} {i : ℕ} {path : Path}

/-- Every file is kept. -/
abbrev Keeps (cfg : Config) (fs : FS) (c : ℕ → List UInt8) : Prop :=
  Shows cfg (FileView.Kept cfg.ioBlockSize) fs c

lemma enoughIfLru_of_off (hlru : cfg.applyLruEviction = false) (s : FileView × ℕ)
    (offset stop : ℕ) :
    EnoughIfLru cfg s offset stop := fun h => by rw [hlru] at h; cases h

/-- Without eviction no call needs free pages. -/
lemma roomy_of_off (hlru : cfg.applyLruEviction = false) (op : FileOp) :
    cfg.applyLruEviction = true → op.Roomy cfg fs := fun hon => by rw [hlru] at hon; cases hon

/-- `lfs_fsync` on a kept file leaves the contents in the backing file. -/
theorem Shows.fsync_kept (hs : Keeps cfg fs c) (hi : fs.disk.ino path = some i) (isdatasync : Bool)
    {io : SyncIo} (hio : (fs.file cfg i).SyncFine cfg.ioBlockSize (fs.sizeOf i) io) :
    ∃ fs', fs.lfsFsync cfg path isdatasync io = some (fs', 0) ∧ fs'.free = fs.free ∧
      Touched cfg path i (fs.sizeOf i) fs fs' ∧ fs'.file cfg i = (fs.file cfg i).cleaned (c i) ∧
      Keeps cfg fs' c := by
  have hk := hs.file i
  obtain ⟨fs', disk1, hsync, ht, hfree, hF, hD, hfile⟩ :=
    hs.sound.lfsFsync hi hk.bounded isdatasync io
  rw [hs.size] at hio hfile
  rw [hk.synced hio hF hD] at hfile
  refine ⟨fs', hsync, hfree, ht, hfile, hs.unchanged ht ?_⟩
  rw [hfile]
  exact hk.cleaned

/-- **One call**: it succeeds, and every file is kept along with its contents; a file that is spared
keeps its blocks, which may become clean. -/
theorem Shows.run (h : OnePage cfg) (hs : Keeps cfg fs c) (op : FileOp) (hop : op.Proper cfg fs)
    (hroom : cfg.applyLruEviction = true → op.Roomy cfg fs) :
    ∃ fs' res, op.run cfg fs = some (fs', res) ∧ Disk.SameNames fs.disk fs'.disk ∧
      Keeps cfg fs' (op.logical fs.disk fs.disk.bytes c) ∧
      ∀ j, op.Spares fs.disk j → fs'.file cfg j = fs.file cfg j ∨
        fs'.file cfg j = (fs.file cfg j).cleaned (c j) := by
  have hB := h.pos
  -- only `fsync` cleans a file; the others leave it, or are calls on it
  cases op with
  | getattr path =>
      obtain ⟨i, hi⟩ := hop
      obtain ⟨fs', st, hget, -, hopen, hs'⟩ := hs.getattr hi
      exact ⟨fs', _, by rw [FileOp.run, hget]; rfl, hopen.touched.names, hs',
        fun j _ => .inl (hopen.file j)⟩
  | read path buf size offset fi io =>
      obtain ⟨i, hi, hsize, hw, hfi, hio⟩ := hop
      obtain ⟨fs', r, buf', hread, hfile, -, ht, hs', -⟩ := hs.read hB hi (hs.file i).holds
        (hs.file i).bounded buf hsize (hw.trans (by norm_num)) hfi hio
      refine ⟨fs', _, by rw [FileOp.run, hread]; rfl, ht.names, hs', fun j _ => .inl ?_⟩
      by_cases hj : j = i
      · rw [hj, hfile]
      · exact ht.file j hj
  | write path buf size offset fi io fillIo =>
      obtain ⟨i, hi, hsize, hlen, hfi, hio, hfillIo⟩ := hop
      have hne : buf.read 0 size ≠ [] := by
        rw [← List.length_pos_iff, Mem.length_read]
        exact hsize
      obtain ⟨fs', hwrite, -, ht, hs'⟩ := hs.write h hi buf hsize
        (hlen.trans ((maxSize_le_offT _).trans (by norm_num))) hfi hio hfillIo
        (enoughIfLru_of_roomy fun hlru => by
          rw [← hs.size]
          exact hroom hlru i hi)
        (FileView.Kept.writeAt (s := (fs.file cfg i, fs.free)) (hs.file i) hB hne
          (by rw [Mem.length_read]; exact hlen))
      refine ⟨fs', _, by rw [FileOp.run, hwrite]; rfl, ht.names, ?_, fun j hj => .inl ?_⟩
      · rw [FileOp.logical, hi]
        exact hs'
      · exact ht.file j fun hij => hj (hij ▸ hi)
  | truncate path n fi io fillIo =>
      obtain ⟨i, hi, hgrow, hlen, hfi, hio, hfillIo⟩ := hop
      rw [hs.size] at hgrow
      obtain ⟨fs', r, htrunc, -, ht, hs'⟩ := hs.truncate h hi
        (hlen.trans ((maxSize_le_offT _).trans (by norm_num))) hgrow hfi hio hfillIo
        (fun hlt => enoughIfLru_of_roomy fun hlru => by
          rw [← hs.size] at hlt ⊢
          exact hroom hlru i hi hlt)
        (FileView.Kept.resize (s := (fs.file cfg i, fs.free)) (hs.file i) hB hlen)
      refine ⟨fs', _, by rw [FileOp.run, htrunc]; rfl, ht.names, ?_, fun j hj => .inl ?_⟩
      · rw [FileOp.logical, hi]
        exact hs'
      · exact ht.file j fun hij => hj (hij ▸ hi)
  | fsync path isdatasync io =>
      obtain ⟨i, hi, hio⟩ := hop
      obtain ⟨fs', hsync, -, ht, hfile, hs'⟩ := hs.fsync_kept hi isdatasync hio
      refine ⟨fs', _, by rw [FileOp.run, hsync]; rfl, ht.names, hs', fun j _ => ?_⟩
      by_cases hj : j = i
      · rw [hj]
        exact .inr hfile
      · exact .inl (ht.file j hj)
  | clear =>
      have hs' := hs.clear h fun i => .bare (hs.file i).disk_le
      obtain ⟨-, hd, -⟩ := hs.sound.clearAllCache h
      refine ⟨_, _, rfl, ?_, hs', fun _ h => h.elim⟩
      rw [hd]
      exact .refl _

end FS

/-! ### Runs -/

/-- One call, on the file system and on the contents of its files. -/
def FileOp.step (cfg : Config) (s : FS × (ℕ → List UInt8)) (op : FileOp) :
    Option (FS × (ℕ → List UInt8)) :=
  (op.run cfg s.1).map fun r => (r.1, op.logical s.1.disk s.1.disk.bytes s.2)

/-- A fresh file system over files of at most `2^31` blocks. -/
def FS.Start (cfg : Config) (s : FS × (ℕ → List UInt8)) : Prop :=
  ∃ d : Disk, (∀ i, (d.bytes i).length ≤ maxSize cfg.ioBlockSize) ∧ s = (⟨.new cfg, d⟩, d.bytes)

/-- The states reached by proper calls. -/
abbrev FS.Reached (cfg : Config) : FS × (ℕ → List UInt8) → Prop :=
  Runs.Reach (FileOp.step cfg) (fun s op => op.Proper cfg s.1) (FS.Start cfg)

/-- **Every file is kept** in every state reached, whatever the number of pages. -/
theorem FS.keeps_of_reached (h : OnePage cfg) (hlru : cfg.applyLruEviction = false)
    {s : FS × (ℕ → List UInt8)} (hs : FS.Reached cfg s) : FS.Keeps cfg s.1 s.2 := by
  refine hs.invariant (P := fun s => FS.Keeps cfg s.1 s.2) ?_ ?_
  · rintro _ ⟨d, hd, rfl⟩
    exact shows_new h d fun i => .bare (hd i)
  · intro s op s' hk hop hstep
    obtain ⟨fs', res, hrun, -, hs', -⟩ := hk.run h op hop (roomy_of_off hlru op)
    rw [FileOp.step, hrun, Option.map_some, Option.some.injEq] at hstep
    rw [← hstep]
    exact hs'

/-! ### A small file system -/

/-- One empty file. -/
def oneFile : Disk where
  entries := Map.single ["f"] (.file 1)
  bytes := fun _ => []
  times := fun _ => ⟨default, default, default⟩
  sectors := fun _ => 0
  cwd := []

/-- Four bytes. -/
def abcd : Mem := Mem.ofList [97, 98, 99, 100]

/-- A handle of the file. -/
def handle : FileInfo := { fh := ⟨1, true, true⟩ }

/-- The write of a block. -/
def writeAbcd : FileOp := .write ["f"] abcd 4 0 handle {} {}

lemma writeAbcd_proper :
    writeAbcd.Proper (.tiny 2 false) ⟨.new (.tiny 2 false), oneFile⟩ :=
  ⟨1, by decide, by decide, by decide, ⟨rfl, rfl, rfl⟩, ⟨rfl, fun _ => rfl, fun _ => rfl⟩,
    ⟨rfl, fun _ => rfl, fun _ => rfl⟩⟩

/-- The file system after the write, and its contents. -/
def written : Option (FS × (ℕ → List UInt8)) :=
  Runs.run (FileOp.step (.tiny 2 false)) (⟨.new (.tiny 2 false), oneFile⟩,
    oneFile.bytes) [writeAbcd]

/-- The state after the write is reached. -/
lemma reached_written {s : FS × (ℕ → List UInt8)} (hs : written = some s) :
    FS.Reached (.tiny 2 false) s := by
  have hrun : Runs.run (FileOp.step (.tiny 2 false)) (⟨.new (.tiny 2 false), oneFile⟩,
      oneFile.bytes)
      [writeAbcd] = some s := hs
  refine Runs.Reach.of_run (.init ⟨oneFile, fun i => Nat.zero_le _, rfl⟩) ?_ hrun
  exact ⟨writeAbcd_proper, fun _ _ => trivial⟩

end LazyFS
