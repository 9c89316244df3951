import LazyFS.File.Kept
import LazyFS.Hooks.Plain

/-!
The backing files at the stages of a call.

* `FileView.Roomy.fill`: enough free pages for a write are enough for the hole before it.
* `FS.SameBacking`: the backing files and their names are as they were.
* `WriteStage.sameBacking`, `TruncateStage.sameBacking`: with enough free pages a write or a
  truncation that is cut short has not touched a backing file.
-/

namespace LazyFS

open Engine

/-- Free pages for the blocks of a write are free pages for the blocks of the hole before it. -/
lemma FileView.Roomy.fill {B size offset stop : ℕ} (hB : 0 < B) {v : FileView × ℕ}
    (hlt : size < offset) (hle : offset ≤ stop) (h : FileView.Roomy B (min size offset) stop v) :
    FileView.Roomy B size offset v := by
  refine le_trans (Finset.card_le_card (Finset.filter_subset_filter _ ?_)) h
  intro b hb
  obtain ⟨n, hn, rfl⟩ := List.mem_map.mp (List.mem_toFinset.mp hb)
  obtain ⟨h1, h2⟩ := (mem_blocksOf hB hlt).mp hn
  exact FileView.mem_ids ((mem_blocksOf hB (by omega)).mpr ⟨by omega, by omega⟩)

namespace FS

variable {cfg : Config} {fs fs' fs'' : FS} {path : Path} {i n : ℕ} {c : ℕ → List UInt8}

/-- The backing files and their names are as they were. -/
structure SameBacking (fs fs' : FS) : Prop where
  bytes : fs'.disk.bytes = fs.disk.bytes
  names : Disk.SameNames fs.disk fs'.disk

lemma SameBacking.refl (fs : FS) : SameBacking fs fs := ⟨rfl, .refl _⟩

lemma SameBacking.trans (h : SameBacking fs fs') (h' : SameBacking fs' fs'') :
    SameBacking fs fs'' :=
  ⟨h'.bytes.trans h.bytes, h.names.trans h'.names⟩

lemma Opened.sameBacking (h : Opened cfg path i fs fs') : SameBacking fs fs' := by
  refine ⟨by rw [h.disk], ?_⟩
  rw [h.disk]
  exact .refl _

/-- An operation on the file `i` that leaves its backing file alone. -/
lemma Touched.sameBacking (h : Touched cfg path i n fs fs')
    (hd : (fs'.file cfg i).disk = (fs.file cfg i).disk) : SameBacking fs fs' := by
  refine ⟨funext fun j => ?_, h.names⟩
  by_cases hj : j = i
  · rw [hj]
    exact hd
  · exact congrArg FileView.disk (h.file j hj)

/-- The start of `lfs_write` opens the item and reads its size. -/
lemma Sound.writeStart (hS : fs.Sound cfg) (hi : fs.disk.ino path = some i) :
    ∃ fs1, fs.writeStart cfg path = some (fs1, inodeStr i, fs.sizeOf i) ∧
    Opened cfg path i fs fs1 := by
  obtain ⟨fs1, st, hget, hopen, -⟩ := hS.lfsGetattr hi
  refine ⟨fs1, ?_, hopen⟩
  obtain ⟨m, hm, hsize⟩ := hopen.touched.exists_meta
  have hm' : fs1.cache.getContentMetadata (inodeStr i) = some m := hm
  rw [FS.writeStart, hget, Option.bind_eq_bind, Option.bind_some]
  dsimp only
  rw [hopen.inode, hm', ← hsize]

/-- The zeros of a hole, with enough free pages. -/
lemma Sound.fill_sameBacking (h : OnePage cfg) (hS : fs.Sound cfg) (hi : fs.disk.ino path = some i)
    {offset : ℕ} (hlt : fs.sizeOf i < offset) (hw : offset ≤ 2 ^ 64) {io : WriteIo} (hio : io.Ok)
    (hlru : cfg.applyLruEviction = false)
    (hroom : FileView.Roomy cfg.ioBlockSize (fs.sizeOf i) offset (fs.file cfg i, fs.free)) {r : ℤ}
    (hnull : fs.lfsWriteNull cfg path (fun _ => 0) (offset - fs.sizeOf i) (fs.sizeOf i) io
      = some (fs', r)) : SameBacking fs fs' := by
  have hadd : fs.sizeOf i + (offset - fs.sizeOf i) = offset := by omega
  obtain ⟨fs2, h1, h2, h3⟩ :=
    hS.lfsWriteNull h hi (fun _ => 0) (show 0 < offset - fs.sizeOf i by omega)
    (by rw [hadd]; exact hw) hio (enoughIfLru_of_off hlru _ _ _)
  rw [hnull, Option.some.injEq, Prod.mk.injEq] at h1
  obtain ⟨rfl, -⟩ := h1
  refine h2.sameBacking ?_
  have hdisk := FileView.Roomy.disk_fillTo (s := (fs.file cfg i, fs.free)) fun _ => hroom
  rw [FileView.fillTo, if_pos hlt, ← read_zeros, ← h3] at hdisk
  exact hdisk

end FS

open FS

variable {cfg : Config} {fs fs' : FS} {path : Path} {c : ℕ → List UInt8} {io : WritesIo}

/-- **A write that is cut short** has not touched a backing file. -/
lemma WriteStage.sameBacking (h : OnePage cfg) (hlru : cfg.applyLruEviction = false)
    (hk : FS.Keeps cfg fs c) {buf : Mem} {size offset : ℕ} {fi : FileInfo}
    (hop : (FileOp.write path buf size offset fi io.io io.fillIo).Proper cfg fs)
    (hroom : (FileOp.write path buf size offset fi io.io io.fillIo).Roomy cfg fs)
    (hst : WriteStage cfg fs path buf size offset (some fi) io fs') : SameBacking fs fs' := by
  obtain ⟨i, hi, hsize, hlen, hfi, hio, hfillIo⟩ := hop
  have hle : offset + size ≤ 2 ^ 64 := hlen.trans ((maxSize_le_offT _).trans (by norm_num))
  have hroom' := hroom i hi
  obtain ⟨fs1, hstart, hopen⟩ := hk.sound.writeStart hi
  cases hst with
  | start => exact .refl fs
  | hole _ hst _ =>
      rw [hstart, Option.some.injEq, Prod.mk.injEq] at hst
      rw [← hst.1]
      exact hopen.sameBacking
  | filled _ hst hlt hnull =>
      rw [hstart, Option.some.injEq, Prod.mk.injEq, Prod.mk.injEq] at hst
      obtain ⟨rfl, rfl, rfl⟩ := hst
      refine hopen.sameBacking.trans ?_
      rw [← hopen.sizeOf] at hnull hlt
      refine hopen.sound.fill_sameBacking h (by rw [hopen.disk]; exact hi) hlt (by omega)
        hfillIo hlru ?_ hnull
      rw [hopen.sizeOf, hopen.view_eq]
      rw [hopen.sizeOf] at hlt
      exact hroom'.fill h.pos hlt (by omega)
  | done hdone =>
      have hread : (buf.read 0 size).length = size := Mem.length_read _ _ _
      have hne : buf.read 0 size ≠ [] := by
        rw [← List.length_pos_iff, hread]
        exact hsize
      obtain ⟨fs2, h1, ht, hview⟩ := hk.sound.lfsWrite h hi buf hsize hle hfi hio hfillIo
        (enoughIfLru_of_off hlru _ _ _)
      rw [hdone, Option.some.injEq, Prod.mk.injEq] at h1
      obtain ⟨rfl, -⟩ := h1
      refine ht.sameBacking ?_
      rw [(Prod.mk.inj hview).1]
      exact FileView.Roomy.disk_writeAt (s := (fs.file cfg i, fs.free)) h.pos hne
        (by rw [hread]; exact hroom')

/-- **A truncation that is cut short** has not touched a backing file. -/
lemma TruncateStage.sameBacking (h : OnePage cfg) (hlru : cfg.applyLruEviction = false)
    (hk : FS.Keeps cfg fs c) {n : ℕ} {fi : Option FileInfo}
    (hop : (FileOp.truncate path n fi io.io io.fillIo).Proper cfg fs)
    (hroom : (FileOp.truncate path n fi io.io io.fillIo).Roomy cfg fs)
    (hst : TruncateStage cfg fs path n fi io fs') : SameBacking fs fs' := by
  obtain ⟨i, hi, hgrow, hlen, hfi, hio, hfillIo⟩ := hop
  have hle : n ≤ 2 ^ 64 := hlen.trans ((maxSize_le_offT _).trans (by norm_num))
  have hroom' := hroom i hi
  cases hst with
  | start => exact .refl fs
  -- in the write of zeros, which starts at the end of the file and leaves no hole
  | grow htarget hbefore hlt hwrite =>
      obtain ⟨fs1, st, hget, hopen, -⟩ := hk.sound.lfsGetattr hi
      obtain ⟨m, hm, hsize⟩ := hopen.touched.exists_meta
      have hm' : fs1.cache.getContentMetadata (inodeStr i) = some m := hm
      have hcont : fs1.cache.hasContentCached (inodeStr i) = true := by
        rw [Cache.getContentMetadata, Option.map_eq_some_iff] at hm'
        obtain ⟨it, hit, -⟩ := hm'
        rw [Cache.hasContentCached, hit]
        rfl
      rw [hget, Option.bind_some, FS.truncateInode, hopen.inode, hcont, if_pos rfl,
        Option.some.injEq, Prod.mk.injEq, Option.some.injEq] at htarget
      obtain ⟨rfl, rfl⟩ := htarget
      rw [hm', Option.map_some, Option.getD_some, hsize, ← hopen.sizeOf] at hbefore
      subst hbefore
      refine hopen.sameBacking.trans ?_
      have hi1 : fs1.disk.ino path = some i := by rw [hopen.disk]; exact hi
      have hroom1 : FileView.Roomy cfg.ioBlockSize (fs1.sizeOf i) n (fs1.file cfg i, fs1.free) := by
        rw [hopen.sizeOf, hopen.view_eq]
        rw [hopen.sizeOf] at hlt
        exact hroom' hlt
      have hadd : fs1.sizeOf i + (n - fs1.sizeOf i) = n := by omega
      obtain ⟨fs2, hstart, hopen2⟩ := hopen.sound.writeStart hi1
      have hnohole : ∀ {fs3 : FS} {inode : String} {before : ℕ},
          fs1.writeStart cfg path = some (fs3, inode, before) → ¬ before < fs1.sizeOf i := by
        intro fs3 inode before hst
        rw [hstart, Option.some.injEq, Prod.mk.injEq, Prod.mk.injEq] at hst
        omega
      -- the write has not begun, or is done
      cases hwrite with
      | start => exact .refl fs1
      | hole _ hst hbad => exact absurd hbad (hnohole hst)
      | filled _ hst hbad _ => exact absurd hbad (hnohole hst)
      | done hdone =>
          obtain ⟨fs3, h1, ht, hview⟩ := hopen.sound.lfsWrite_append h hi1 (fun _ => 0)
            (show 0 < n - fs1.sizeOf i by omega) (by rw [hadd]; exact hle) hfi hio hfillIo
            (enoughIfLru_of_off hlru _ _ _)
          rw [hdone, Option.some.injEq, Prod.mk.injEq] at h1
          obtain ⟨rfl, -⟩ := h1
          refine ht.sameBacking ?_
          have hdisk := FileView.Roomy.disk_fillTo (s := (fs1.file cfg i, fs1.free)) fun _ => hroom1
          rw [FileView.fillTo, if_pos hlt, ← read_zeros, ← hview] at hdisk
          exact hdisk
  | done hdone =>
      obtain ⟨fs2, r, h1, ht, hview⟩ := hk.sound.lfsTruncate h hi hle hgrow hfi hio hfillIo
        fun _ => enoughIfLru_of_off hlru _ _ _
      rw [hdone, Option.some.injEq, Prod.mk.injEq] at h1
      obtain ⟨rfl, -⟩ := h1
      refine ht.sameBacking ?_
      rw [(Prod.mk.inj hview).1]
      exact FileView.Roomy.disk_fillTo (s := (fs.file cfg i, fs.free)) hroom'

end LazyFS
