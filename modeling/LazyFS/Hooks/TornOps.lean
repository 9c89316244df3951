import LazyFS.Guarantees.ClearFaults
import LazyFS.Hooks.TornCalls

/-!
The torn writes of every call on a file.

* `FS.nullWriteTorn`, `FS.holeTorn`, `FS.writeTorn`, `FS.growTorn`: the torn writes of the
  operations that write; `Call.tornWrites` are those of a call, from the file system it finds when
  it takes the lock.
* `through_write`: a write runs through its torn writes, or is killed after one of them.
-/

namespace LazyFS

open Program Lfs

variable {cfg : Config} {rgx : Rgx} {s s' : Lfs} {α : Type}

namespace FS

variable (cfg)

/-- The torn write of a write with a null handle. -/
def nullWriteTorn (fs : FS) (path : Path) (buf : Mem) (size offset : ℕ) (io : TornIo) :
    List (Write × TornIo) :=
  if (fs.disk.openWrite path).isSome then [(⟨path, buf.read 0 size, offset⟩, io)] else []

/-- The torn write that fills the hole before the offset. -/
def holeTorn (fs : FS) (path : Path) (offset : ℕ) (fi : FileInfo) (io : TornIo) :
    List (Write × TornIo) :=
  match fs.writeStart cfg path with
  | none => []
  | some (fs, _, fileSizeBefore) =>
      if fi.directIo then [] else if fileSizeBefore < offset then
        fs.nullWriteTorn path (fun _ => 0) (offset - fileSizeBefore) fileSizeBefore io else []

/-- The torn writes of a write. -/
def writeTorn (fs : FS) (path : Path) (buf : Mem) (size offset : ℕ) (io : WritesIo) :
    Option FileInfo → List (Write × TornIo)
  | none => fs.nullWriteTorn path buf size offset io.torn
  | some fi => fs.holeTorn cfg path offset fi io.fillTorn
      ++ [(⟨path, buf.read 0 size, offset⟩, io.torn)]

/-- The torn writes of a truncation that grows the file. -/
def growTorn (fs : FS) (path : Path) (size : ℕ) (fi : Option FileInfo) (io : WritesIo) :
    List (Write × TornIo) :=
  match fs.truncateTarget cfg path fi with
  | some (fs, some inode) =>
      let previousSize := ((fs.cache.getContentMetadata inode).map Metadata.size).getD 0
      if previousSize < size then
        fs.writeTorn cfg path (fun _ => 0) (size - previousSize) previousSize io fi
      else []
  | _ => []

end FS

/-- The torn writes of a call under the lock. -/
def Call.tornWrites (cfg : Config) (fs : FS) : Call → List (Write × TornIo)
  | write path buf size offset fi io => fs.writeTorn cfg path buf size offset io (some fi)
  | truncate path size fi io => fs.growTorn cfg path size fi io
  | _ => []

/-! ### Operations inside others -/

/-- The body of a write with a null handle. -/
def writeNullBody (cfg : Config) (path : Path) (buf : Mem) (size offset : ℕ) (io : WriteIo)
    (torn : TornIo) : FaultM (ℤ × Bool) := do
  let s ← get
  match s.fs.disk.openWrite path with
  | none => pure (-cfg.errno, false)
  | some fd => do
      let (inode, fileSizeBefore) ← liftFs (FS.writeStart cfg · path)
      liftFs fun fs => (fs.writeRest cfg path inode fileSizeBefore buf size offset fd io).map
        (·, ())
      tornWrites ⟨path, buf.read 0 size, offset⟩ torn
      pure (FS.writeRes cfg size, true)

lemma lfsWriteNull_eq (path : Path) (buf : Mem) (size offset : ℕ) (io : WriteIo) (torn : TornIo) :
    lfsWriteNull cfg rgx path buf size offset io torn
      = hooked cfg rgx "write" path.str "" "after"
        (writeNullBody cfg path buf size offset io torn) := rfl

/-- The torn write of a body is the only one, if the file can be opened. -/
lemma endsTorn_writeNullBody (path : Path) (buf : Mem) (size offset : ℕ) (io : WriteIo)
    (torn : TornIo) :
    EndsTorn rgx path.str []
      (if (s.fs.disk.openWrite path).isSome then
        some (⟨path, buf.read 0 size, offset⟩, torn) else none)
      (writeNullBody cfg path buf size offset io torn) s := by
  intro hk
  rw [writeNullBody, wp_bind, wp_get]
  cases hfd : s.fs.disk.openWrite path with
  | none => exact EndsTorn.early _ hk
  | some fd =>
      have hend : EndsTorn rgx path.str [] (some (⟨path, buf.read 0 size, offset⟩, torn)) (do
          let (inode, fileSizeBefore) ← liftFs (FS.writeStart cfg · path)
          liftFs fun fs =>
            (fs.writeRest cfg path inode fileSizeBefore buf size offset fd io).map (·, ())
          Lfs.tornWrites ⟨path, buf.read 0 size, offset⟩ torn
          pure (FS.writeRes cfg size, true)) s := by
        refine EndsTorn.step (Through.liftFs fun fs a h => FS.sameNames_writeStart h) ?_
        intro a s2 _ _
        refine EndsTorn.step (Through.liftFs fun fs a h => ?_) fun _ s3 _ _ => EndsTorn.tail _ _ _
        obtain ⟨fs1, h1, h2⟩ := Option.map_eq_some_iff.mp h
        cases h2
        exact FS.sameNames_writeRest h1
      exact hend hk

lemma nullWriteTorn_eq (fs : FS) (path : Path) (buf : Mem) (size offset : ℕ) (torn : TornIo) :
    fs.nullWriteTorn path buf size offset torn = [] ++ (if (fs.disk.openWrite path).isSome then
      some ((⟨path, buf.read 0 size, offset⟩ : Write), torn) else none).toList := by
  rw [FS.nullWriteTorn]
  split_ifs <;> rfl

/-- A write with a null handle from where it takes the lock. -/
lemma through_lockedNull (path : Path) (buf : Mem) (size offset : ℕ) (io : WriteIo)
    (torn : TornIo) :
    Through rgx path.str (s.fs.nullWriteTorn path buf size offset torn)
      (underLock cfg rgx "write" path.str "" "after"
        (writeNullBody cfg path buf size offset io torn))
      (fun _ _ => True) s := by
  rw [nullWriteTorn_eq]
  refine Through.underLock _ fun s1 h1 _ => ?_
  rw [← h1]
  exact endsTorn_writeNullBody path buf size offset io torn

lemma through_writeNull (cfg : Config) (rgx : Rgx) (hh : 0 < s.sharedHolds) (path : Path)
    (buf : Mem) (size offset : ℕ) (io : WriteIo) (torn : TornIo) :
    Through rgx path.str (s.fs.nullWriteTorn path buf size offset torn)
      (Lfs.lfsWriteNull cfg rgx path buf size offset io torn) (fun _ _ => True) s := by
  rw [lfsWriteNull_eq]
  refine Through.hooked (by decide) fun s1 _ hfs => ?_
  rw [← hfs hh]
  exact through_lockedNull path buf size offset io torn

/-- The body of a write with a handle. -/
def writeBody (cfg : Config) (rgx : Rgx) (path : Path) (buf : Mem) (size offset : ℕ) (fi : FileInfo)
    (io : WritesIo) : FaultM (ℤ × Bool) := do
  let (inode, fileSizeBefore) ← liftFs (FS.writeStart cfg · path)
  if fi.directIo then
    modify fun s =>
      { s with
          fs := { s.fs with
            disk := (s.fs.disk.pwrite (some fi.fh) io.io.direct (buf.read 0 size) offset).2 } }
  else do
    if fileSizeBefore < offset then do
      let _ ← lfsWriteNull cfg rgx path (fun _ => 0) (offset - fileSizeBefore) fileSizeBefore
        io.fillIo io.fillTorn
    liftFs fun fs =>
      (fs.writeRest cfg path inode fileSizeBefore buf size offset fi.fh io.io).map (·, ())
  tornWrites ⟨path, buf.read 0 size, offset⟩ io.torn
  pure (FS.writeRes cfg size, true)

lemma lfsWrite_eq (path : Path) (buf : Mem) (size offset : ℕ) (fi : FileInfo) (io : WritesIo) :
    lfsWrite cfg rgx path buf size offset (some fi) io
      = hooked cfg rgx "write" path.str "" "after" (writeBody cfg rgx path buf size offset fi io) :=
  rfl

lemma endsTorn_writeBody (hh : 0 < s.sharedHolds) (path : Path) (buf : Mem) (size offset : ℕ)
    (fi : FileInfo) (io : WritesIo) :
    EndsTorn rgx path.str (s.fs.holeTorn cfg path offset fi io.fillTorn)
      (some (⟨path, buf.read 0 size, offset⟩, io.torn))
      (writeBody cfg rgx path buf size offset fi io) s := by
  rw [FS.holeTorn, writeBody]
  cases hst : s.fs.writeStart cfg path with
  | none => exact EndsTorn.liftFs_none hst
  | some r =>
      obtain ⟨fs1, inode, fileSizeBefore⟩ := r
      refine EndsTorn.step (Through.liftFs (f := (FS.writeStart cfg · path))
        fun fs a h => FS.sameNames_writeStart h) fun a s1 _ ha => ?_
      obtain ⟨ha, hholds⟩ := ha
      rw [hst, Option.some.injEq, Prod.mk.injEq] at ha
      obtain ⟨rfl, rfl⟩ := ha
      have hpos : 0 < s1.sharedHolds := by rwa [hholds]
      have hrest : ∀ s2, Through rgx path.str [] (liftFs fun fs =>
          (fs.writeRest cfg path inode fileSizeBefore buf size offset fi.fh io.io).map (·, ()))
          (fun _ _ => True) s2 := by
        intro s2
        refine (Through.liftFs fun fs a h => ?_).mono fun _ _ _ => trivial
        obtain ⟨fs1, h1, h2⟩ := Option.map_eq_some_iff.mp h
        cases h2
        exact FS.sameNames_writeRest h1
      dsimp only
      split_ifs with hd hlt
      · exact EndsTorn.step (Through.modify (.setFs (Disk.sameNames_pwrite _ _ _ _ _)))
          fun _ s2 _ _ => EndsTorn.tail _ _ _
      · have hwrite := through_writeNull cfg rgx hpos path (fun _ => 0)
          (offset - fileSizeBefore) fileSizeBefore io.fillIo io.fillTorn
        have h := EndsTorn.bind hwrite fun _ s2 _ _ => EndsTorn.step (hrest s2) fun _ s3 _ _ =>
          EndsTorn.tail ⟨path, buf.read 0 size, offset⟩ io.torn (FS.writeRes cfg size)
        rwa [List.append_nil] at h
      · exact EndsTorn.step (hrest s1) fun _ s2 _ _ => EndsTorn.tail _ _ _

/-- A write with a handle from where it takes the lock. -/
lemma through_lockedWrite (path : Path) (buf : Mem) (size offset : ℕ) (fi : FileInfo)
    (io : WritesIo) :
    Through rgx path.str (s.fs.writeTorn cfg path buf size offset io (some fi))
      (underLock cfg rgx "write" path.str "" "after" (writeBody cfg rgx path buf size offset fi io))
      (fun _ _ => True) s := by
  rw [FS.writeTorn]
  refine Through.underLock (some (⟨path, buf.read 0 size, offset⟩, io.torn)) fun s1 h1 hpos => ?_
  rw [← h1]
  exact endsTorn_writeBody hpos path buf size offset fi io

/-- **A write**, with the file system it finds when it takes the lock. -/
lemma through_write (path : Path) (buf : Mem) (size offset : ℕ) (fi : Option FileInfo)
    (io : WritesIo) :
    Through rgx path.str ((atLock cfg "write" path.str s).writeTorn cfg path buf size offset io fi)
      (lfsWrite cfg rgx path buf size offset fi io) (fun _ _ => True) s := by
  cases fi with
  | none =>
      change Through rgx path.str _ (lfsWriteNull cfg rgx path buf size offset io.io io.torn) _ s
      rw [lfsWriteNull_eq]
      refine Through.hooked (by decide) fun s1 h1 _ => ?_
      rw [← h1]
      exact through_lockedNull path buf size offset io.io io.torn
  | some fi =>
      rw [lfsWrite_eq]
      refine Through.hooked (by decide) fun s1 h1 _ => ?_
      rw [← h1]
      exact through_lockedWrite path buf size offset fi io

end LazyFS
