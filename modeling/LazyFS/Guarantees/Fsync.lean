import LazyFS.File.Kept

/-!
**`lfs_fsync`** and the calls of its write-back.

* `FsyncHonest`: success means that the backing file is the contents; a block that was not written
  is reported, stays dirty and is written by a later `lfs_fsync` whose calls succeed.
* `fsyncHonest_of_reached`: it is so in every run whose write-backs are fine.
* `fsync_lies`: a failed `pwritev` is not reported, and the block is clean afterwards.
-/

namespace LazyFS

open Engine

variable {cfg : Config}

/-- Block `b` of the file `i` was dirty, and a byte of it is not in the backing file afterwards. -/
def Unwritten (cfg : Config) (s : FS × (ℕ → List UInt8)) (fs' : FS) (i : ℕ) (b : ℕ) : Prop :=
  ∃ (v : BlockView) (j : ℕ), (s.1.file cfg i).blocks b = some v ∧ v.dirty = true ∧
    (j : ℤ) ≤ v.readableTo ∧ b * cfg.ioBlockSize + j < (s.2 i).length ∧
    (fs'.disk.bytes i)[b * cfg.ioBlockSize + j]? ≠ v.bytes[j]?

/-- A call that is not a clear. -/
def FileOp.Keeping : FileOp → Prop
  | .clear => False
  | _ => True

/-- What a `lfs_fsync` of the file `i` that returns `r` has to have done. -/
structure FsyncHonest (cfg : Config) (s : FS × (ℕ → List UInt8)) (path : Path) (i : ℕ) (fs' : FS)
    (r : ℤ) : Prop where
  success : r = 0 → fs'.disk.bytes i = s.2 i
  reported : ∀ b, Unwritten cfg s fs' i b → r ≠ 0
  stays : ∀ b, Unwritten cfg s fs' i b →
    ∃ v, (fs'.file cfg i).blocks (b : ℕ) = some v ∧ v.dirty = true
  retried : ∀ b, Unwritten cfg s fs' i b → ∀ (later : List FileOp) (s' : FS × (ℕ → List UInt8)),
    Runs.Guarded (FileOp.step cfg) (fun s op => op.Proper cfg s.1 ∧ op.Keeping) (fs', s.2) later →
    Runs.run (FileOp.step cfg) (fs', s.2) later = some s' → ∀ (isdatasync : Bool) (io : SyncIo),
    io.Ok → io.ftruncateOk = true →
    ∃ fs'', s'.1.lfsFsync cfg path isdatasync io = some (fs'', 0) ∧ fs''.disk.bytes i = s'.2 i

/-- **`lfs_fsync` is honest** in every run whose write-backs are fine. -/
theorem fsyncHonest_of_reached (h : OnePage cfg) (hlru : cfg.applyLruEviction = false)
    {s : FS × (ℕ → List UInt8)} (hs : FS.Reached cfg s) {path : Path} {i : ℕ}
    (hi : s.1.disk.ino path = some i) (isdatasync : Bool) {io : SyncIo}
    (hio : (s.1.file cfg i).SyncFine cfg.ioBlockSize (s.1.sizeOf i) io) :
    ∃ fs' r, s.1.lfsFsync cfg path isdatasync io = some (fs', r) ∧
      FsyncHonest cfg s path i fs' r := by
  have hk := FS.keeps_of_reached h hlru hs
  obtain ⟨fs', hsync, -, -, hfile, -⟩ := hk.fsync_kept hi isdatasync hio
  have hdisk : fs'.disk.bytes i = s.2 i := congrArg FileView.disk hfile
  -- every block is written
  have hwritten : ∀ b, ¬ Unwritten cfg s fs' i b := by
    rintro b ⟨v, j, hv, -, hj, hlt, hne⟩
    obtain ⟨-, hB, -⟩ := (hk.file i).bounded _ v hv
    have hid : toInt (b : ℕ) = b :=
      FileView.toInt_of_small (hk.file i).small ((Nat.le_add_right _ j).trans_lt hlt)
    obtain ⟨hdiv, hmod⟩ := FileView.div_mod_of_mem (B := cfg.ioBlockSize) (n := b)
      (i := b * cfg.ioBlockSize + j) (Nat.le_add_right _ _) (by rw [Nat.add_mul, one_mul]; omega)
    have hat := (FileView.at_some (by rw [hdiv, hid]; exact hv)).mp ((hk.file i).holds _ hlt)
    rw [hmod, Nat.add_sub_cancel_left] at hat
    rw [hdisk, hat.2] at hne
    exact hne rfl
  exact ⟨fs', 0, hsync, fun _ => hdisk, fun b hb => absurd hb (hwritten b),
    fun b hb => absurd hb (hwritten b), fun b hb => absurd hb (hwritten b)⟩

/-! ### A failed `pwritev` -/

/-- A write-back whose `pwritev` fails. -/
def failing : SyncIo := { pwritev := fun _ => .fail }

/-- The write and a write-back whose calls succeed. -/
theorem fsyncHonest_written : ∃ s fs' r, written = some s ∧
    s.1.lfsFsync (.tiny 2 false) ["f"] false {} = some (fs', r) ∧
    FsyncHonest (.tiny 2 false) s ["f"] 1 fs' r := by
  obtain ⟨s, hs⟩ := Option.isSome_iff_exists.mp (show written.isSome = true by decide +kernel)
  have hi : written.map (fun s => s.1.disk.ino ["f"]) = some (some 1) := by decide +kernel
  rw [hs, Option.map_some, Option.some.injEq] at hi
  obtain ⟨fs', r, h1, h2⟩ := fsyncHonest_of_reached (Config.onePage_tiny 2 false) rfl
    (reached_written hs) hi false
    (show FileView.SyncFine 4 _ {} _ from ⟨fun _ _ _ _ => ⟨rfl, fun _ => rfl⟩, .inl ⟨rfl, rfl⟩⟩)
  exact ⟨s, fs', r, hs, h1, h2⟩

/-- **`lfs_fsync` lies** about a `pwritev` that failed: it returns success, and the backing file has
zeros. -/
theorem fsync_lies : ∃ s fs' r, FS.Reached (.tiny 2 false) s ∧
    s.1.lfsFsync (.tiny 2 false) ["f"] false failing = some (fs', r) ∧
    ¬ FsyncHonest (.tiny 2 false) s ["f"] 1 fs' r := by
  have hrun : (written.bind fun s => (s.1.lfsFsync (.tiny 2 false) ["f"] false failing).map fun r =>
      (r.2, r.1.disk.bytes 1, s.2 1)) = some (0, [0, 0, 0, 0], [97, 98, 99, 100]) := by
        decide +kernel
  obtain ⟨s, hs, hrun⟩ := Option.bind_eq_some_iff.mp hrun
  obtain ⟨⟨fs', r⟩, hsync, hval⟩ := Option.map_eq_some_iff.mp hrun
  simp only [Prod.mk.injEq] at hval
  refine ⟨s, fs', r, reached_written hs, hsync, fun hh => ?_⟩
  have := hh.success hval.1
  rw [hval.2.1, hval.2.2] at this
  cases this

end LazyFS
