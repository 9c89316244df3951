import LazyFS.File.TruncateOp
import LazyFS.File.ReadOp
import LazyFS.File.Durable
import LazyFS.Rep.Invariant

/-!
Calls on files and the contents they stand for.

* `FileOp`, `FileOp.run`: one call of the file system, or a clear of the cache, with its result.
* `FileOp.logical`: what a call makes of the contents of the files, as POSIX byte arrays.
* `FS.Shows`: every file has its contents and reports their length; `Shows.touched` is the rule for
  one file, and `Shows.getattr` to `Shows.clear` are what the calls do, for any invariant of the
  views.
-/

namespace LazyFS

open Engine

/-- One call on a file, or a clear. -/
inductive FileOp where
  | getattr (path : Path)
  | read (path : Path) (buf : Mem) (size offset : ℕ) (fi : Option FileInfo) (io : ReadIo)
  | write (path : Path) (buf : Mem) (size offset : ℕ) (fi : FileInfo) (io fillIo : WriteIo)
  | truncate (path : Path) (n : ℕ) (fi : Option FileInfo) (io fillIo : WriteIo)
  | fsync (path : Path) (isdatasync : Bool) (io : SyncIo)
  | clear

/-- What a call returns. -/
inductive FileRes where
  | stat (r : StatRes)
  | data (r : ℤ) (buf : Mem)
  | ret (r : ℤ)

namespace FileOp

/-- The file system after a call, with the result. -/
def run (cfg : Config) (fs : FS) : FileOp → Option (FS × FileRes)
  | getattr path => (fs.lfsGetattr cfg path).map fun r => (r.1, .stat r.2)
  | read path buf size offset fi io =>
      (fs.lfsRead cfg path buf size offset fi io).map fun r => (r.1, .data r.2.1 r.2.2)
  | write path buf size offset fi io fillIo =>
      (fs.lfsWrite cfg path buf size offset (some fi) io fillIo).map fun r => (r.1, .ret r.2)
  | truncate path n fi io fillIo =>
      (fs.lfsTruncate cfg path n fi io fillIo).map fun r => (r.1, .ret r.2)
  | fsync path isdatasync io => (fs.lfsFsync cfg path isdatasync io).map fun r => (r.1, .ret r.2)
  | clear => some (fs.clearAllCache cfg, .ret 0)

/-- The path of a call. -/
def path? : FileOp → Option Path
  | getattr path | read path .. | write path .. | truncate path .. | fsync path .. => some path
  | clear => none

/-- The contents after a call: a write overwrites, a truncation cuts or fills with zeros, and after
a clear they are what it restores. -/
def logical (d : Disk) (restored c : ℕ → List UInt8) : FileOp → ℕ → List UInt8
  | write path buf size offset .. => match d.ino path with
      | some i => Function.update c i (Bytes.write (c i) offset (buf.read 0 size))
      | none => c
  | truncate path n .. => match d.ino path with
      | some i => Function.update c i (Bytes.resize (c i) n)
      | none => c
  | clear => restored
  | _ => c

end FileOp

/-! ### Enough free pages -/

/-- The free pages are enough for the blocks of `[offset, stop)` that are not resident. -/
def FileView.Roomy (B offset stop : ℕ) (s : FileView × ℕ) : Prop :=
  s.1.missing ((blocksOf B offset stop).map fun n : ℕ => toInt n).toFinset ≤ s.2

instance (B offset stop : ℕ) (s : FileView × ℕ) : Decidable (FileView.Roomy B offset stop s) :=
  inferInstanceAs (Decidable (_ ≤ _))

namespace FileView

variable {B offset stop size : ℕ} {s : FileView × ℕ}

lemma mem_ids {n : ℕ} (hn : n ∈ blocksOf B offset stop) :
    toInt n ∈ ((blocksOf B offset stop).map fun n : ℕ => toInt n).toFinset :=
  List.mem_toFinset.mpr (List.mem_map_of_mem hn)

/-- A pool with a page for every block of a write. -/
lemma roomy_of_le (h : (blocksOf B offset stop).length ≤ s.2) : Roomy B offset stop s :=
  calc s.1.missing ((blocksOf B offset stop).map fun n : ℕ => toInt n).toFinset
      ≤ (((blocksOf B offset stop).map fun n : ℕ => toInt n).toFinset).card :=
      Finset.card_filter_le _ _
    _ ≤ ((blocksOf B offset stop).map fun n : ℕ => toInt n).length := List.toFinset_card_le _
    _ = (blocksOf B offset stop).length := List.length_map _
    _ ≤ s.2 := h

/-- A write with enough free pages leaves the backing file alone. -/
lemma Roomy.disk_writeAt (hB : 0 < B) {src : List UInt8} (hs : src ≠ [])
    (h : Roomy B (min size offset) (offset + src.length) s) :
    (FileView.writeAt B size offset src s).1.disk = s.1.disk := by
  rw [(writeAt_enough hB hs (fun n hn => mem_ids hn) h).1, disk_writeStored]

/-- A truncation with enough free pages leaves the backing file alone. -/
lemma Roomy.disk_fillTo (h : size < offset → Roomy B size offset s) :
    (FileView.fillTo B size offset s).1.disk = s.1.disk := by
  rw [FileView.fillTo]
  split_ifs with hlt
  · have hlen : size + (List.replicate (offset - size) (0 : UInt8)).length = offset := by
      rw [List.length_replicate]
      omega
    rw [(writeAll_enough size (fun n hn => mem_ids hn) (by rw [hlen]; exact h hlt)).1,
      disk_writeBlocks fun _ _ => rfl]
  · rfl

end FileView

/-- The pages that a call may need are free. -/
def FileOp.Roomy (cfg : Config) (fs : FS) : FileOp → Prop
  | write path _ size offset .. => ∀ i, fs.disk.ino path = some i →
      FileView.Roomy cfg.ioBlockSize (min (fs.sizeOf i) offset) (offset + size)
        (fs.file cfg i, fs.free)
  | truncate path n .. => ∀ i, fs.disk.ino path = some i → fs.sizeOf i < n →
      FileView.Roomy cfg.ioBlockSize (fs.sizeOf i) n (fs.file cfg i, fs.free)
  | _ => True

namespace FS

variable {cfg : Config} {fs fs' : FS} {i n : ℕ} {path : Path}

/-- The pages that a write needs are free when eviction is on. -/
lemma enoughIfLru_of_roomy {v : FileView × ℕ} {offset stop : ℕ}
    (h : cfg.applyLruEviction = true → FileView.Roomy cfg.ioBlockSize offset stop v) :
    EnoughIfLru cfg v offset stop :=
  fun hlru => ⟨_, fun _ hn => FileView.mem_ids hn, h hlru⟩

lemma Touched.sizeOf_ne (h : Touched cfg path i n fs fs') {j : ℕ} (hj : j ≠ i) :
    fs'.sizeOf j = fs.sizeOf j := by
  have hfile := congrArg FileView.disk (h.file j hj)
  rw [FS.sizeOf, FS.sizeOf, h.metaOf j hj, show fs'.disk.bytes j = fs.disk.bytes j from hfile]

/-- Every file has its contents, in the sense of `P`, and reports their length. -/
structure Shows (cfg : Config) (P : List UInt8 → FileView → Prop) (fs : FS)
    (c : ℕ → List UInt8) : Prop where
  sound : fs.Sound cfg
  size : ∀ i, fs.sizeOf i = (c i).length
  file : ∀ i, P (c i) (fs.file cfg i)

variable {P : List UInt8 → FileView → Prop} {c : ℕ → List UInt8} {c' : List UInt8}

/-- **One file changes**, and its contents with it. -/
lemma Shows.touched (h : Shows cfg P fs c) (ht : Touched cfg path i n fs fs') (hn : n = c'.length)
    (hP : P c' (fs'.file cfg i)) : Shows cfg P fs' (Function.update c i c') where
  sound := ht.sound
  size := fun j => by
    by_cases hj : j = i
    · rw [hj, Function.update_self, ht.sizeOf, hn]
    · rw [Function.update_of_ne hj, ht.sizeOf_ne hj, h.size]
  file := fun j => by
    by_cases hj : j = i
    · rw [hj, Function.update_self]
      exact hP
    · rw [Function.update_of_ne hj, ht.file j hj]
      exact h.file j

/-- A call that changes no contents. -/
lemma Shows.unchanged (h : Shows cfg P fs c) (ht : Touched cfg path i (fs.sizeOf i) fs fs')
    (hP : P (c i) (fs'.file cfg i)) : Shows cfg P fs' c := by
  have := h.touched ht (h.size i) hP
  rwa [Function.update_eq_self] at this

/-- A fresh file system shows its backing files. -/
lemma shows_new (h : OnePage cfg) (d : Disk) (hP : ∀ i, P (d.bytes i) (.bare (d.bytes i))) :
    Shows cfg P ⟨.new cfg, d⟩ d.bytes where
  sound := ⟨⟨_, Cache.good_new h⟩, fun _ _ h => (by cases h), fun _ h => absurd rfl h⟩
  size := fun _ => rfl
  file := hP

lemma free_new (cfg : Config) (d : Disk) : FS.free ⟨.new cfg, d⟩ = cfg.cacheNrPages :=
  List.length_range

/-! ### The calls -/

/-- `lfs_getattr` reports the length of the contents. -/
theorem Shows.getattr (hs : Shows cfg P fs c) (hi : fs.disk.ino path = some i) :
    ∃ fs' st, fs.lfsGetattr cfg path = some (fs', .reg st) ∧ st.stSize = (c i).length ∧
      Opened cfg path i fs fs' ∧ Shows cfg P fs' c := by
  obtain ⟨fs', st, hget, hopen, hsize⟩ := hs.sound.lfsGetattr hi
  have hst : st.stSize = fs.sizeOf i := by
    rw [hsize, FS.sizeOf]
    cases fs.metaOf i <;> rfl
  refine ⟨fs', st, hget, hst.trans (hs.size i), hopen, hs.unchanged hopen.touched ?_⟩
  rw [hopen.file]
  exact hs.file i

/-- `lfs_read` returns and changes no file. -/
theorem Shows.read (hs : Shows cfg P fs c) (hB : 0 < cfg.ioBlockSize)
    (hi : fs.disk.ino path = some i) (hholds : FileView.Holds cfg.ioBlockSize (c i) (fs.file cfg i))
    (hbound : FileView.Bounded cfg.ioBlockSize (fs.file cfg i)) (buf : Mem) {size offset : ℕ}
    (hsize : 0 < size) (hw : offset + size ≤ 2 ^ 64) {fi : Option FileInfo} (hfi : ReadHandle i fi)
    {io : ReadIo} (hio : ReadIo.Ok io) :
    ∃ fs' r buf', fs.lfsRead cfg path buf size offset fi io = some (fs', r, buf') ∧
      fs'.file cfg i = fs.file cfg i ∧ fs'.free = fs.free ∧
      Touched cfg path i (fs.sizeOf i) fs fs' ∧ Shows cfg P fs' c ∧
      (FileView.Clamped cfg.ioBlockSize (c i) (fs.file cfg i) →
        r = writeResult cfg (min size ((c i).length - offset)) ∧
        buf'.read 0 (min size ((c i).length - offset)) = Bytes.slice (c i) offset size) := by
  obtain ⟨-, hsome⟩ := hs.sound.lfsRead hB hi buf hsize hw hfi hio
  rw [hs.size] at hsome
  obtain ⟨⟨k, buf'⟩, hk⟩ := Option.isSome_iff_exists.mp
    (show ((fs.file cfg i).read cfg.ioBlockSize (c i).length offset size buf).isSome from
      hholds.isSome_read hbound hB hsize buf)
  obtain ⟨fs', hread, ht, hfile, hfree⟩ := hsome k buf' hk
  rw [← hs.size] at ht
  refine ⟨fs', _, buf', hread, hfile, hfree, ht, hs.unchanged ht ?_, fun hX => ?_⟩
  · rw [hfile]
    exact hs.file i
  · obtain ⟨buf1, hk1, hbuf1⟩ : ∃ buf1,
      (fs.file cfg i).read cfg.ioBlockSize (c i).length offset size buf
          = some (min size ((c i).length - offset), buf1) ∧
        buf1.read 0 (min size ((c i).length - offset)) = Bytes.slice (c i) offset size :=
      hholds.read hbound hX hB hsize buf
    rw [hk, Option.some.injEq, Prod.mk.injEq] at hk1
    obtain ⟨rfl, rfl⟩ := hk1
    exact ⟨rfl, hbuf1⟩

/-- `lfs_write`, when the backing calls that it makes succeed and the written view has the written
contents. -/
theorem Shows.write_served (h : OnePage cfg) (hs : Shows cfg P fs c)
    (hi : fs.disk.ino path = some i) (buf : Mem) {size offset : ℕ} (hsize : 0 < size)
    (hw : offset + size ≤ 2 ^ 64) {fi : FileInfo}
    (hfi : fi.fh.ino = i ∧ fi.fh.writable = true ∧ fi.directIo = false) {io fillIo : WriteIo}
    (hfillIo : FileView.FillServed cfg (fs.sizeOf i) offset fillIo (fs.file cfg i, fs.free))
    (hio : FileView.WriteServed cfg (fs.sizeOf i) offset (buf.read 0 size) io
      (FileView.fillTo cfg.ioBlockSize (fs.sizeOf i) offset (fs.file cfg i, fs.free)))
    (hno : EnoughIfLru cfg (fs.file cfg i, fs.free) (min (c i).length offset) (offset + size))
    (hP : P (Bytes.write (c i) offset (buf.read 0 size)) (FileView.writeAt cfg.ioBlockSize
      (c i).length offset (buf.read 0 size) (fs.file cfg i, fs.free)).1) :
    ∃ fs', fs.lfsWrite cfg path buf size offset (some fi) io fillIo
        = some (fs', writeResult cfg size) ∧
      (fs'.file cfg i, fs'.free) = FileView.writeAt cfg.ioBlockSize (c i).length offset
        (buf.read 0 size) (fs.file cfg i, fs.free) ∧
      Touched cfg path i (max (offset + size) (c i).length) fs fs' ∧
      Shows cfg P fs' (Function.update c i (Bytes.write (c i) offset (buf.read 0 size))) := by
  rw [← hs.size] at hno
  obtain ⟨fs', hwrite, ht, hview⟩ :=
    hs.sound.lfsWrite_served h hi buf hsize hw hfi hfillIo hio hno
  rw [hs.size] at ht hview
  have hne : buf.read 0 size ≠ [] := by
    rw [← List.length_pos_iff, Mem.length_read]
    exact hsize
  refine ⟨fs', hwrite, hview, ht, hs.touched ht ?_ ?_⟩
  · rw [Bytes.length_write _ _ hne, Mem.length_read, max_comm]
  · rw [← hview] at hP
    exact hP

/-- `lfs_write`, when all calls succeed. -/
theorem Shows.write (h : OnePage cfg) (hs : Shows cfg P fs c) (hi : fs.disk.ino path = some i)
    (buf : Mem) {size offset : ℕ} (hsize : 0 < size) (hw : offset + size ≤ 2 ^ 64) {fi : FileInfo}
    (hfi : fi.fh.ino = i ∧ fi.fh.writable = true ∧ fi.directIo = false) {io fillIo : WriteIo}
    (hio : io.Ok) (hfillIo : fillIo.Ok)
    (hno : EnoughIfLru cfg (fs.file cfg i, fs.free) (min (c i).length offset) (offset + size))
    (hP : P (Bytes.write (c i) offset (buf.read 0 size)) (FileView.writeAt cfg.ioBlockSize
      (c i).length offset (buf.read 0 size) (fs.file cfg i, fs.free)).1) :
    ∃ fs', fs.lfsWrite cfg path buf size offset (some fi) io fillIo
        = some (fs', writeResult cfg size) ∧
      (fs'.file cfg i, fs'.free) = FileView.writeAt cfg.ioBlockSize (c i).length offset
        (buf.read 0 size) (fs.file cfg i, fs.free) ∧
      Touched cfg path i (max (offset + size) (c i).length) fs fs' ∧
      Shows cfg P fs' (Function.update c i (Bytes.write (c i) offset (buf.read 0 size))) :=
  hs.write_served h hi buf hsize hw hfi (fun _ => hfillIo.served _ _ _ _)
    (hio.served _ _ _ _) hno hP

/-- `lfs_truncate`, when the view after it has the contents after it. -/
theorem Shows.truncate (h : OnePage cfg) (hs : Shows cfg P fs c) (hi : fs.disk.ino path = some i)
    {k : ℕ} (hk : k ≤ 2 ^ 64) (hgrow : k < (c i).length + 2 ^ 31) {fi : Option FileInfo}
    (hfi : TruncateHandle i fi) {io fillIo : WriteIo} (hio : io.Ok) (hfillIo : fillIo.Ok)
    (hno : (c i).length < k → EnoughIfLru cfg (fs.file cfg i, fs.free) (c i).length k)
    (hP : P (Bytes.resize (c i) k) (FileView.fillTo cfg.ioBlockSize (c i).length k
      (fs.file cfg i, fs.free)).1) :
    ∃ fs' r, fs.lfsTruncate cfg path k fi io fillIo = some (fs', r) ∧
      (fs'.file cfg i, fs'.free) = FileView.fillTo cfg.ioBlockSize (c i).length k
        (fs.file cfg i, fs.free) ∧
      Touched cfg path i k fs fs' ∧
      Shows cfg P fs' (Function.update c i (Bytes.resize (c i) k)) := by
  rw [← hs.size] at hno hgrow
  obtain ⟨fs', r, htrunc, ht, hview⟩ := hs.sound.lfsTruncate h hi hk hgrow hfi hio hfillIo hno
  rw [hs.size] at hview
  refine ⟨fs', r, htrunc, hview, ht, hs.touched ht (Bytes.length_resize _ _).symm ?_⟩
  rw [← hview] at hP
  exact hP

/-- `lfs_fsync`, when the cleaned view still has the contents. -/
theorem Shows.fsync (hs : Shows cfg P fs c) (hi : fs.disk.ino path = some i)
    (hbound : FileView.Bounded cfg.ioBlockSize (fs.file cfg i)) (isdatasync : Bool) (io : SyncIo)
    (hP : ∀ disk1, FileView.Flushed cfg.ioBlockSize (fs.file cfg i) disk1 →
      (io.Ok → (∀ b v, (fs.file cfg i).blocks b = some v → v.dirty = true → 0 ≤ b) →
        FileView.Durable cfg.ioBlockSize (fs.file cfg i) disk1) →
      P (c i) ((fs.file cfg i).cleaned
        (if io.openOk && io.ftruncateOk then Bytes.resize disk1 (c i).length else disk1))) :
    ∃ fs', fs.lfsFsync cfg path isdatasync io = some (fs', 0) ∧ fs'.free = fs.free ∧
      Touched cfg path i (fs.sizeOf i) fs fs' ∧ Shows cfg P fs' c := by
  obtain ⟨fs', disk1, hsync, ht, hfree, hF, hD, hfile⟩ := hs.sound.lfsFsync hi hbound isdatasync io
  rw [hs.size] at hfile
  refine ⟨fs', hsync, hfree, ht, hs.unchanged ht ?_⟩
  rw [hfile]
  exact hP disk1 hF hD

/-- A clear leaves what is in the backing file system. -/
theorem Shows.clear (h : OnePage cfg) (hs : Shows cfg P fs c)
    (hP : ∀ i, P (fs.disk.bytes i) (.bare (fs.disk.bytes i))) :
    Shows cfg P (fs.clearAllCache cfg) fs.disk.bytes := by
  obtain ⟨h1, h2, h3, h4, -⟩ := hs.sound.clearAllCache h
  refine ⟨h1, fun i => ?_, fun i => ?_⟩
  · rw [FS.sizeOf, h3, h2]
    rfl
  · rw [h4]
    exact hP i

end FS

end LazyFS
