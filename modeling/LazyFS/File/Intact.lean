import LazyFS.File.Kept
import LazyFS.File.Large

/-!
Files of any size, written in their first `N` blocks, over every run of calls; `N` is `2^32` at
most.

* `FileView.idSpan`: the positions of the first `2^32` blocks; each of them has an `int` of its own.
* `FileView.Intact`: the resident blocks and the backing file are the contents as far as that;
  `Intact.writeAt`, `Intact.growTo`, `Intact.cleaned`, `Intact.read`: what the calls do to it.
* `FileOp.Fits`, `Shows.run_fits`: the calls, on files that stay intact; `FS.IntactReach`: the
  states that they reach.
-/

namespace LazyFS

open Engine

namespace FileView

variable {N B offset n : ℕ} {c disk' src : List UInt8} {f : FileView} {s : FileView × ℕ}

/-- The positions of the first `2^32` blocks. -/
def idSpan (B : ℕ) : ℕ := 2 ^ 32 * B

/-- A block that is not resident under its id is not resident under its number: no id is `2^31` or
more. -/
lemma Ids.plain (h : Ids (· < 2 ^ 31) f) : Plain B c f := by
  intro m _ hnone
  rcases Nat.lt_or_ge m (2 ^ 31) with hm | hm
  · rwa [toInt_of_lt hm] at hnone
  · by_contra hne
    have hlt : (m : ℤ) < 2 ^ 31 := h m hne
    omega

/-- The resident blocks, which are among the first `N` of a file, and the backing file are the
contents `c` as far as blocks have ids of their own. -/
structure Intact (N B : ℕ) (c : List UInt8) (f : FileView) : Prop where
  bounded : Bounded B f
  holds : Holds B (c.take (idSpan B)) f
  ids : Ids (fun b => ∃ n < N, b = toInt n) f

namespace Intact

lemma holds_of_le (h : Intact N B c f) (hle : c.length ≤ idSpan B) : Holds B c f := by
  have hc := h.holds
  rwa [List.take_of_length_le hle] at hc

lemma of_holds (hb : Bounded B f) (h : Holds B c f) (hi : Ids (fun b => ∃ n < N, b = toInt n) f) :
    Intact N B c f :=
  ⟨hb, h.take _, hi⟩

/-- The first `2^31` blocks have their numbers as ids. -/
lemma numbered (h : Intact (2 ^ 31) B c f) : Numbered f := by
  intro b hb
  obtain ⟨m, hm, rfl⟩ := h.ids b hb
  rw [toInt_of_lt hm]
  exact Int.natCast_nonneg m

/-- The ids that a write to the first `N` blocks uses. -/
lemma exists_id {stop : ℕ} (hstop : stop ≤ N * B) (m : ℕ) (hm : m * B < stop) :
    ∃ k < N, toInt m = toInt k :=
  ⟨m, Nat.lt_of_mul_lt_mul_right (hm.trans_le hstop), rfl⟩

/-- A file without blocks. -/
lemma bare (N B : ℕ) (c : List UInt8) : Intact N B c (.bare c) :=
  .of_holds bounded_bare holds_bare fun _ hb => absurd rfl hb

/-- **A write** in the first blocks. -/
theorem writeAt (h : Intact N B c s.1) (hN : N ≤ 2 ^ 32) (hB : 0 < B) (hs : src ≠ [])
    (hlow : offset + src.length ≤ N * B) :
    Intact N B (Bytes.write c offset src) (FileView.writeAt B c.length offset src s).1 := by
  have hstop : offset + src.length ≤ idSpan B := hlow.trans (Nat.mul_le_mul_right B hN)
  have hids : Ids (fun b => ∃ n < N, b = toInt n) (FileView.writeAt B c.length offset src s).1 :=
    h.ids.writeAt hB hs (exists_id hlow)
  have hlen := Bytes.length_write c offset hs
  rcases Nat.lt_or_ge (idSpan B) c.length with hbig | hle
  · -- the write does not reach the end of the file
    have hk : (c.take (idSpan B)).length = idSpan B := List.length_take_of_le hbig.le
    have hwk : (Bytes.write (c.take (idSpan B)) offset src).length = idSpan B := by
      rw [Bytes.length_write_of_le _ _ _ (by omega), hk]
    have hfresh : FreshFree B c.length (c.take (idSpan B)) s offset (offset + src.length) := by
      intro m hm _ _ hknown
      have hlt :=
        ((mem_blocksOf hB (Nat.lt_add_of_pos_right (List.length_pos_iff.mpr hs))).mp hm).1
      omega
    refine ⟨h.bounded.writeAt hB hs, ?_, hids⟩
    rw [FileView.writeAt, FileView.fillTo, if_neg (by omega), take_write hstop hbig.le]
    exact h.holds.writeAll hB hs (by omega) hwk.le hfresh
  · exact .of_holds (h.bounded.writeAt hB hs)
      ((h.holds_of_le hle).writeAt hB hs (by rw [hlen]; exact max_le hle hstop)) hids

/-- A backing file that is cut or grown past the end of the contents still has them. -/
lemma resize_disk (h : Holds B c f) (hn : c.length ≤ n) :
    Holds B c { f with disk := Bytes.resize f.disk n } := by
  intro i hi
  have hat := h i hi
  cases hv : f.blocks (toInt (i / B : ℕ)) with
  | some v =>
      rw [at_some (f := { f with disk := Bytes.resize f.disk n }) hv]
      exact (at_some hv).mp hat
  | none =>
      rw [at_none hv] at hat
      rw [at_none (f := { f with disk := Bytes.resize f.disk n }) hv, ← hat]
      rw [List.getElem?_eq_getElem hi] at hat
      exact Bytes.getElem?_resize_of_lt _ (by omega) (List.getElem?_eq_some_iff.mp hat).1

/-- **A truncation** that grows a file in its first blocks, or cuts it. -/
theorem growTo (cfg : Config) (h : Intact N B c s.1) (hN : N ≤ 2 ^ 32) (hB : 0 < B)
    (hn : n ≤ c.length ∨ n ≤ N * B) :
    Intact N B (Bytes.resize c n) (FileView.growTo cfg B c.length n s).1 := by
  rcases Nat.lt_or_ge c.length n with hlt | hge
  · have hlow : n ≤ N * B := hn.resolve_left (by omega)
    have hle : n ≤ 2 ^ 32 * B := hlow.trans (Nat.mul_le_mul_right B hN)
    have hfill : Holds B (Bytes.resize c n) (FileView.fillTo B c.length n s).1 :=
      (h.holds_of_le (show c.length ≤ 2 ^ 32 * B by omega)).resize hB hle
    have hids : Ids (fun b => ∃ n < N, b = toInt n) (FileView.fillTo B c.length n s).1 :=
      h.ids.fillTo hB (exists_id hlow)
    have hbound : Bounded B (FileView.fillTo B c.length n s).1 := h.bounded.fillTo hB
    rw [FileView.growTo]
    split_ifs
    · exact .of_holds hbound (resize_disk hfill (by rw [Bytes.length_resize])) hids
    · exact .of_holds hbound hfill hids
  · rw [FileView.growTo, if_neg (fun hc => absurd hc.1 (by omega)), FileView.fillTo,
      if_neg (by omega), Bytes.resize_eq_take c hge]
    refine ⟨h.bounded, ?_, h.ids⟩
    rw [List.take_take, min_comm, ← List.take_take]
    exact h.holds.take n

/-- **A write-back**, whatever becomes of its calls. -/
theorem cleaned (h : Intact N B c f) (hF : Flushed B f disk') {d : List UInt8}
    (hd : d = disk' ∨ d = Bytes.resize disk' c.length) : Intact N B c (f.cleaned d) := by
  have hP : Plain B (c.take (idSpan B)) f := Ids.plain fun b hb => by
    obtain ⟨m, -, rfl⟩ := h.ids b hb
    exact toInt_lt _
  have hkept : Holds B (c.take (idSpan B)) (f.cleaned disk') := h.holds.cleaned hP hF (.inl rfl)
  refine ⟨h.bounded.cleaned d, ?_, fun b hb => h.ids b ?_⟩
  · rcases hd with rfl | rfl
    · exact hkept
    · exact resize_disk hkept (by rw [List.length_take]; omega)
  · rwa [blocks_cleaned, Ne, Option.map_eq_none_iff] at hb

end Intact

end FileView

/-! ### The calls -/

/-- The calls of the file system: on the path of a regular file, on handles of that file, with
backing calls that succeed, but for those of a write-back; writes and growing truncations end in the
first `N` blocks. -/
def FileOp.Fits (N : ℕ) (cfg : Config) (fs : FS) : FileOp → Prop
  | getattr path => ∃ i, fs.disk.ino path = some i
  | read path _ size offset fi io => ∃ i, fs.disk.ino path = some i ∧ 0 < size ∧
      offset + size ≤ 2 ^ 63 ∧ FS.ReadHandle i fi ∧ FS.ReadIo.Ok io
  | write path _ size offset fi io fillIo => ∃ i, fs.disk.ino path = some i ∧ 0 < size ∧
      offset + size ≤ min (N * cfg.ioBlockSize) (2 ^ 63) ∧
      (fi.fh.ino = i ∧ fi.fh.writable = true ∧ fi.directIo = false) ∧ io.Ok ∧ fillIo.Ok
  | truncate path n fi io fillIo => ∃ i, fs.disk.ino path = some i ∧
      (n ≤ fs.sizeOf i ∨ n ≤ N * cfg.ioBlockSize) ∧ n < 2 ^ 63 ∧ FS.TruncateHandle i fi ∧
      io.Ok ∧ fillIo.Ok
  | fsync path _ _ => ∃ i, fs.disk.ino path = some i
  | clear => True

/-- A call that writes nothing back to the file `j`: its pages are free when it writes to `j`, and
it grows `j` by less than `2^31` bytes. -/
def FileOp.Quiet (cfg : Config) (fs : FS) (j : ℕ) : FileOp → Prop
  | write path buf size offset fi io fillIo => fs.disk.ino path = some j →
      (write path buf size offset fi io fillIo).Roomy cfg fs
  | truncate path n fi io fillIo => fs.disk.ino path = some j → n < fs.sizeOf j + 2 ^ 31 ∧
      (truncate path n fi io fillIo).Roomy cfg fs
  | fsync path .. => fs.disk.ino path ≠ some j
  | clear => False
  | _ => True

/-- A truncation that grows by less than `2^31` bytes, with enough free pages. -/
lemma FileView.disk_growTo {cfg : Config} {B size n : ℕ} {s : FileView × ℕ} (hn : n < size + 2 ^ 31)
    (hroom : size < n → Roomy B size n s) : (growTo cfg B size n s).1.disk = s.1.disk := by
  rw [growTo, if_neg fun hc => hc.2 (FS.writeResult_of_lt (by omega))]
  exact Roomy.disk_fillTo hroom

namespace FS

variable {N : ℕ} {cfg : Config} {fs fs' : FS} {c : ℕ → List UInt8} {i j : ℕ}
  {path : Path} {res : FileRes}

/-- Every file is intact. -/
abbrev Intact (N : ℕ) (cfg : Config) (fs : FS) (c : ℕ → List UInt8) : Prop :=
  Shows cfg (FileView.Intact N cfg.ioBlockSize) fs c

/-- `lfs_truncate` to any size, when the view after it has the contents after it. -/
theorem Shows.truncate_any {P : List UInt8 → FileView → Prop} (h : OnePage cfg)
    (hs : Shows cfg P fs c) (hi : fs.disk.ino path = some i) {k : ℕ} (hk : k ≤ 2 ^ 64)
    {fi : Option FileInfo} (hfi : TruncateHandle i fi) {io fillIo : WriteIo} (hio : io.Ok)
    (hfillIo : fillIo.Ok)
    (hno : (c i).length < k → EnoughIfLru cfg (fs.file cfg i, fs.free) (c i).length k)
    (hP : P (Bytes.resize (c i) k) (FileView.growTo cfg cfg.ioBlockSize (c i).length k
      (fs.file cfg i, fs.free)).1) :
    ∃ fs' r, fs.lfsTruncate cfg path k fi io fillIo = some (fs', r) ∧
      (fs'.file cfg i, fs'.free) = FileView.growTo cfg cfg.ioBlockSize (c i).length k
        (fs.file cfg i, fs.free) ∧
      Touched cfg path i k fs fs' ∧
      Shows cfg P fs' (Function.update c i (Bytes.resize (c i) k)) := by
  rw [← hs.size] at hno
  obtain ⟨fs', r, htrunc, ht, hview⟩ := hs.sound.lfsTruncate_any h hi hk hfi hio hfillIo hno
  rw [hs.size] at hview
  refine ⟨fs', r, htrunc, hview, ht, hs.touched ht (Bytes.length_resize _ _).symm ?_⟩
  rw [← hview] at hP
  exact hP

/-- A read that returns changes no file, whatever it returns. -/
theorem Shows.read_returned {P : List UInt8 → FileView → Prop} (hs : Shows cfg P fs c)
    (hB : 0 < cfg.ioBlockSize) (hi : fs.disk.ino path = some i) {buf buf' : Mem} {size offset : ℕ}
    (hsize : 0 < size) (hw : offset + size ≤ 2 ^ 64) {fi : Option FileInfo} (hfi : ReadHandle i fi)
    {io : ReadIo} (hio : ReadIo.Ok io) {r : ℤ}
    (hread : fs.lfsRead cfg path buf size offset fi io = some (fs', r, buf')) :
    Touched cfg path i (fs.sizeOf i) fs fs' ∧ fs'.file cfg i = fs.file cfg i ∧ fs'.free = fs.free ∧
      Shows cfg P fs' c := by
  obtain ⟨hnone, hsome⟩ := hs.sound.lfsRead hB hi buf hsize hw hfi hio
  cases hk : (fs.file cfg i).read cfg.ioBlockSize (fs.sizeOf i) offset size buf with
  | none =>
      rw [hnone hk] at hread
      cases hread
  | some k =>
      obtain ⟨fs1, hread1, ht, hfile, hfree⟩ := hsome k.1 k.2 hk
      rw [hread, Option.some.injEq, Prod.mk.injEq] at hread1
      obtain ⟨rfl, -⟩ := hread1
      refine ⟨ht, hfile, hfree, hs.unchanged ht ?_⟩
      rw [hfile]
      exact hs.file i

/-- **One call** that returns: every file stays intact, with the contents that the call leaves, and
a quiet call leaves the backing file alone. -/
theorem Shows.run_fits (h : OnePage cfg) (hlru : cfg.applyLruEviction = false) (hN : N ≤ 2 ^ 32)
    (hs : FS.Intact N cfg fs c) (op : FileOp) (hop : op.Fits N cfg fs)
    (hrun : op.run cfg fs = some (fs', res)) :
    FS.Intact N cfg fs' (op.logical fs.disk fs.disk.bytes c) ∧
      ∀ j, op.Quiet cfg fs j → fs'.disk.bytes j = fs.disk.bytes j := by
  have hB := h.pos
  have hother : ∀ {i n : ℕ} {path : Path}, Touched cfg path i n fs fs' → ∀ j, j ≠ i →
      fs'.disk.bytes j = fs.disk.bytes j :=
    fun ht j hj => congrArg FileView.disk (ht.file j hj)
  -- the theorem of each call, and what it leaves on the disk
  cases op with
  | getattr path =>
      obtain ⟨i, hi⟩ := hop
      obtain ⟨fs1, st, hget, -, hopen, hs'⟩ := hs.getattr hi
      rw [FileOp.run, hget, Option.map_some, Option.some.injEq, Prod.mk.injEq] at hrun
      obtain ⟨rfl, -⟩ := hrun
      exact ⟨hs', fun j _ => congrArg (fun d => d.bytes j) hopen.disk⟩
  | read path buf size offset fi io =>
      obtain ⟨i, hi, hsize, hw, hfi, hio⟩ := hop
      rw [FileOp.run, Option.map_eq_some_iff] at hrun
      obtain ⟨⟨fs1, r, buf'⟩, hread, heq⟩ := hrun
      obtain ⟨rfl, -⟩ := Prod.mk.inj heq
      obtain ⟨ht, hfile, -, hs'⟩ :=
        hs.read_returned hB hi hsize (hw.trans (by norm_num)) hfi hio hread
      refine ⟨hs', fun j _ => ?_⟩
      rcases eq_or_ne j i with rfl | hj
      · exact congrArg FileView.disk hfile
      · exact hother ht j hj
  -- here, and when a file grows, free pages keep the disk as it is
  | write path buf size offset fi io fillIo =>
      obtain ⟨i, hi, hsize, hlen, hfi, hio, hfillIo⟩ := hop
      have hne : buf.read 0 size ≠ [] := by
        rw [← List.length_pos_iff, Mem.length_read]
        exact hsize
      obtain ⟨fs1, hwrite, hview, ht, hs'⟩ := hs.write h hi buf hsize
        (hlen.trans ((min_le_right _ _).trans (by norm_num))) hfi hio hfillIo
        (enoughIfLru_of_off hlru _ _ _)
        (FileView.Intact.writeAt (s := (fs.file cfg i, fs.free)) (hs.file i) hN hB hne
          (by rw [Mem.length_read]; exact hlen.trans (min_le_left _ _)))
      rw [FileOp.run, hwrite, Option.map_some, Option.some.injEq, Prod.mk.injEq] at hrun
      obtain ⟨rfl, -⟩ := hrun
      refine ⟨by rw [FileOp.logical, hi]; exact hs', fun j hq => ?_⟩
      rcases eq_or_ne j i with rfl | hj
      · have hroom := hq hi j hi
        rw [hs.size] at hroom
        have hdisk := FileView.Roomy.disk_writeAt (s := (fs.file cfg j, fs.free)) hB hne
          (by rw [Mem.length_read]; exact hroom)
        rw [← hview] at hdisk
        exact hdisk
      · exact hother ht j hj
  | truncate path n fi io fillIo =>
      obtain ⟨i, hi, hlen, hn, hfi, hio, hfillIo⟩ := hop
      rw [hs.size] at hlen
      obtain ⟨fs1, r, htrunc, hview, ht, hs'⟩ :=
        hs.truncate_any h hi (hn.le.trans (by norm_num)) hfi hio
        hfillIo (fun _ => enoughIfLru_of_off hlru _ _ _)
        (FileView.Intact.growTo (s := (fs.file cfg i, fs.free)) cfg (hs.file i) hN hB hlen)
      rw [FileOp.run, htrunc, Option.map_some, Option.some.injEq, Prod.mk.injEq] at hrun
      obtain ⟨rfl, -⟩ := hrun
      refine ⟨by rw [FileOp.logical, hi]; exact hs', fun j hq => ?_⟩
      rcases eq_or_ne j i with rfl | hj
      · obtain ⟨hgrow, hroom⟩ := hq hi
        rw [hs.size] at hgrow
        have hdisk : (FileView.growTo cfg cfg.ioBlockSize (c j).length n (fs.file cfg j,
            fs.free)).1.disk
            = (fs.file cfg j).disk :=
          FileView.disk_growTo hgrow fun hlt => by
            have hr := hroom j hi (by rw [hs.size]; exact hlt)
            rwa [hs.size] at hr
        rw [← hview] at hdisk
        exact hdisk
      · exact hother ht j hj
  | fsync path isdatasync io =>
      obtain ⟨i, hi⟩ := hop
      obtain ⟨fs1, hsync, -, ht, hs'⟩ := hs.fsync hi (hs.file i).bounded isdatasync io
        fun disk1 hF _ => (hs.file i).cleaned hF (by split_ifs; exacts [.inr rfl, .inl rfl])
      rw [FileOp.run, hsync, Option.map_some, Option.some.injEq, Prod.mk.injEq] at hrun
      obtain ⟨rfl, -⟩ := hrun
      exact ⟨hs', fun j hq => hother ht j fun hj => hq (hj ▸ hi)⟩
  | clear =>
      rw [FileOp.run, Option.some.injEq, Prod.mk.injEq] at hrun
      obtain ⟨rfl, -⟩ := hrun
      exact ⟨hs.clear h fun i => .bare _ _ _, fun _ hq => hq.elim⟩

end FS

/-! ### Runs -/

/-- A fresh file system over files of any size. -/
def FS.Fresh (cfg : Config) (s : FS × (ℕ → List UInt8)) : Prop :=
  ∃ d : Disk, s = (⟨.new cfg, d⟩, d.bytes)

/-- The states reached by calls that fit. -/
abbrev FS.IntactReach (N : ℕ) (cfg : Config) : FS × (ℕ → List UInt8) → Prop :=
  Runs.Reach (FileOp.step cfg) (fun s op => op.Fits N cfg s.1) (FS.Fresh cfg)

/-- **Every file is intact** in every state reached, whatever the number of pages. -/
theorem FS.intact_of_reach {N : ℕ} {cfg : Config} (h : OnePage cfg)
    (hlru : cfg.applyLruEviction = false) (hN : N ≤ 2 ^ 32) {s : FS × (ℕ → List UInt8)}
    (hs : FS.IntactReach N cfg s) : FS.Intact N cfg s.1 s.2 := by
  refine hs.invariant (P := fun s => FS.Intact N cfg s.1 s.2) ?_ ?_
  · rintro _ ⟨d, rfl⟩
    exact shows_new h d fun i => .bare _ _ _
  · intro s op s' hk hop hstep
    rw [FileOp.step, Option.map_eq_some_iff] at hstep
    obtain ⟨r, hrun, rfl⟩ := hstep
    exact (hk.run_fits h hlru hN op hop hrun).1

end LazyFS
