import LazyFS.File.Intact

/-!
**The ids of blocks**: the number of a block is a 64-bit quotient, its id an `int`.

* `IdsFaithful`: what a write and a write-back make of the ids of a file.
* `idsFaithful_iff`: all is well exactly when the write ends in the first `2^31` blocks of a file of
  at most `2^32`.
* `write_not_sent`: block `2^31` is written, synced and not sent.
-/

namespace LazyFS

open Engine

variable {cfg : Config}

/-- The file system `fs'` after `size` bytes of `buf` were written at `offset` of the file `i` and
the file was written back. -/
structure IdsFaithful (cfg : Config) (c : List UInt8) (i : ℕ) (buf : Mem)
    (size offset : ℕ) (fs' : FS) : Prop where
  /-- No block number of the write is changed by its conversion. -/
  kept : ∀ n ∈ blocksOf cfg.ioBlockSize offset (offset + size), toInt n = n
  /-- Two positions of the file are looked up in one block when they have the same quotient. -/
  shared : ∀ x y, x < c.length → y < c.length →
    (toInt (x / cfg.ioBlockSize : ℕ) = toInt (y / cfg.ioBlockSize : ℕ) ↔
      x / cfg.ioBlockSize = y / cfg.ioBlockSize)
  /-- Every byte is sent to its position. -/
  sent : ∀ k < size, (fs'.disk.bytes i)[offset + k]? = some (buf k)

/-- The numbers of the blocks of a request are `int`s when its last one is. -/
lemma toInt_blocksOf_iff {B offset size : ℕ} (hs : 0 < size) :
    (∀ n ∈ blocksOf B offset (offset + size), toInt n = n) ↔ (offset + size - 1) / B < 2 ^ 31 := by
  constructor
  · intro h
    refine toInt_eq_iff.mp (h _ ?_)
    have hle : offset / B ≤ (offset + size - 1) / B := Nat.div_le_div_right (by omega)
    rw [blocksOf, List.mem_range'_1]
    omega
  · intro h n hn
    rw [blocksOf, List.mem_range'_1] at hn
    exact toInt_of_lt (by omega)

/-- Block numbers are told apart by their ids when there are at most `2^32` of them. -/
lemma toInt_div_inj_iff {B N : ℕ} (hB : 0 < B) :
    (∀ x y, x < N → y < N → (toInt (x / B : ℕ) = toInt (y / B : ℕ) ↔ x / B = y / B)) ↔
      N ≤ 2 ^ 32 * B := by
  constructor
  · intro h
    by_contra hlt
    rw [not_le] at hlt
    have hwrap : toInt ((0 / B : ℕ) : ℤ) = toInt ((2 ^ 32 * B / B : ℕ) : ℤ) := by
      rw [Nat.zero_div, Nat.mul_div_cancel _ hB]
      simp [toInt]
    have hdiv := (h 0 (2 ^ 32 * B) (by omega) hlt).mp hwrap
    rw [Nat.zero_div, Nat.mul_div_cancel _ hB] at hdiv
    omega
  · intro h x y hx hy
    have hlt : ∀ z < N, z / B < 2 ^ 32 := fun z hz => (Nat.div_lt_iff_lt_mul hB).mpr (hz.trans_le h)
    exact ⟨toInt_inj (hlt x hx) (hlt y hy), fun heq => by rw [heq]⟩

namespace FileView

variable {B offset : ℕ} {c disk' src : List UInt8} {f : FileView}

/-- The blocks of a write are dirty after it. -/
lemma dirtyAt_writeAt {size : ℕ} {s : FileView × ℕ} {n : ℕ}
    (hn : n ∈ blocksOf B offset (offset + src.length)) :
    (writeAt B size offset src s).1.DirtyAt (toInt n) :=
  dirtyAt_turns _ _ (.inl ⟨n, hn, rfl⟩)

/-- A byte of a block that is dirty or not resident is in the backing file after a write-back that
succeeded. -/
lemma Holds.sent (h : Holds B c f) (hF : Flushed B f disk') (hD : Durable B f disk') {x : ℕ}
    (hx : x < c.length) (hid : toInt (x / B : ℕ) = (x / B : ℕ))
    (hdirty : f.DirtyAt (toInt (x / B : ℕ))) :
    disk'[x]? = (c)[x]? := by
  have hat := h x hx
  cases hv : f.blocks (toInt (x / B : ℕ)) with
  | some v =>
      obtain ⟨h1, h2⟩ := (at_some hv).mp hat
      have hval := hD (x / B) v (x % B) (by rw [← hid]; exact hv) (hdirty v hv) h1
      rw [Nat.div_add_mod'] at hval
      rw [hval, h2]
  | none =>
      refine hF.kept_of_getElem? hx ((at_none hv).mp hat) fun w hw => ?_
      rw [← hid, hv] at hw
      cases hw

end FileView

/-- **The ids of the blocks** of a write inside a file are faithful, up to the backing file, exactly
when the write ends in the first `2^31` blocks and the file has at most `2^32`: in every run whose
writes and growing truncations end in the first `2^31` blocks. -/
theorem idsFaithful_iff (h : OnePage cfg) (hlru : cfg.applyLruEviction = false)
    {s : FS × (ℕ → List UInt8)} (hs : FS.IntactReach (2 ^ 31) cfg s) {path : Path} {i : ℕ}
    (hi : s.1.disk.ino path = some i) (buf : Mem) {size offset : ℕ} (hsize : 0 < size)
    (hin : offset + size ≤ (s.2 i).length) (hw : offset + size ≤ 2 ^ 63) {fi : FileInfo}
    (hfi : fi.fh.ino = i ∧ fi.fh.writable = true ∧ fi.directIo = false) {io fillIo : WriteIo}
    (hio : io.Ok) (hfillIo : fillIo.Ok) (isdatasync : Bool) {syncIo : SyncIo} (hsync : syncIo.Ok) :
    ∃ fs' r fs'', s.1.lfsWrite cfg path buf size offset (some fi) io fillIo = some (fs', r) ∧
      fs'.lfsFsync cfg path isdatasync syncIo = some (fs'', 0) ∧
      (IdsFaithful cfg (s.2 i) i buf size offset fs'' ↔
        (offset + size - 1) / cfg.ioBlockSize < 2 ^ 31 ∧
          (s.2 i).length ≤ 2 ^ 32 * cfg.ioBlockSize) := by
  have hB := h.pos
  have hI := FS.intact_of_reach h hlru (by norm_num) hs
  have hne : buf.read 0 size ≠ [] := by
    rw [← List.length_pos_iff, Mem.length_read]
    exact hsize
  -- the write, and then the fsync of what it left
  obtain ⟨fs', hwrite, ht, hview⟩ :=
    hI.sound.lfsWrite h hi buf hsize (hw.trans (by norm_num)) hfi hio
    hfillIo (FS.enoughIfLru_of_off hlru _ _ _)
  rw [hI.size] at hview
  have hfile : fs'.file cfg i
      = (FileView.writeAt cfg.ioBlockSize (s.2 i).length offset (buf.read 0 size)
      (s.1.file cfg i, s.1.free)).1 := congrArg Prod.fst hview
  have hbound : FileView.Bounded cfg.ioBlockSize (fs'.file cfg i) := by
    rw [hfile]
    exact (hI.file i).bounded.writeAt hB hne
  have hi' : fs'.disk.ino path = some i := by rw [ht.names.ino]; exact hi
  obtain ⟨fs'', disk1, hfsync, -, -, hF, hD, hfile''⟩ :=
    ht.sound.lfsFsync hi' hbound isdatasync syncIo
  refine ⟨fs', _, fs'', hwrite, hfsync, fun hg => ⟨(toInt_blocksOf_iff hsize).mp hg.kept,
    (toInt_div_inj_iff hB).mp hg.shared⟩, fun ⟨hlow, hspan⟩ =>
    ⟨(toInt_blocksOf_iff hsize).mpr hlow, (toInt_div_inj_iff hB).mpr hspan, fun k hk => ?_⟩⟩
  -- both parts of the condition hold: every byte of the write is sent to its own place
  have hstop : offset + size ≤ 2 ^ 31 * cfg.ioBlockSize := by
    have := (Nat.div_lt_iff_lt_mul hB).mp hlow
    omega
  have hintact : FileView.Intact (2 ^ 31)
      cfg.ioBlockSize (Bytes.write (s.2 i) offset (buf.read 0 size))
      (fs'.file cfg i) := by
    rw [hfile]
    exact (hI.file i).writeAt (s := (s.1.file cfg i, s.1.free)) (by norm_num) hB hne
      (by rw [Mem.length_read]; exact hstop)
  have hlen : (Bytes.write (s.2 i) offset (buf.read 0 size)).length = (s.2 i).length :=
    Bytes.length_write_of_le _ _ _ (by rw [Mem.length_read]; exact hin)
  have hblock : (offset + k) / cfg.ioBlockSize ∈ blocksOf cfg.ioBlockSize offset
      (offset + (buf.read 0 size).length) := by
    rw [Mem.length_read, mem_blocksOf hB (by omega)]
    exact ⟨lt_of_le_of_lt (Nat.div_mul_le_self _ _) (by omega),
      lt_of_le_of_lt (Nat.le_add_right _ _) (Nat.lt_mul_of_div_lt (Nat.lt_succ_self _) hB)⟩
  -- the byte `k` of the write lies in a dirty block of the fsync
  have hsent : disk1[offset + k]? = some (buf k) := by
    have hval := (hintact.holds_of_le (hlen.trans_le hspan)).sent hF
      (hD hsync fun b v hv _ => hintact.numbered b (by rw [hv]; simp)) (x := offset + k) (by omega)
      ((toInt_blocksOf_iff hsize).mpr hlow _ (by rwa [Mem.length_read] at hblock))
      (by rw [hfile]; exact FileView.dirtyAt_writeAt hblock)
    rw [hval, Bytes.getElem?_write_of_mem _ (by omega) (by rw [Mem.length_read]; omega),
      Nat.add_sub_cancel_left, Mem.getElem?_read _ _ hk, zero_add]
  have hdisk'' : fs''.disk.bytes i = if syncIo.openOk && syncIo.ftruncateOk then
      Bytes.resize disk1 (fs'.sizeOf i) else disk1 := congrArg FileView.disk hfile''
  -- the `ftruncate` after it leaves the byte
  rw [hdisk'']
  split_ifs
  · rw [← hsent]
    refine Bytes.getElem?_resize_of_lt _ ?_ (List.getElem?_eq_some_iff.mp hsent).1
    rw [ht.sizeOf, hI.size]
    omega
  · exact hsent

/-- One file with the given contents. -/
def diskOf (c : List UInt8) : Disk := { oneFile with bytes := fun _ => c }

/-- A file of five bytes, the first four written. -/
theorem idsFaithful_iff_writeAbcd : ∃ fs' r fs'',
    FS.lfsWrite (.tiny 2 false) ⟨.new (.tiny 2 false), diskOf [0, 0, 0, 0, 0]⟩ ["f"]
      abcd 4 0 (some handle)
        {} {} = some (fs', r) ∧
      fs'.lfsFsync (.tiny 2 false) ["f"] false {} = some (fs'', 0) ∧
      IdsFaithful (.tiny 2 false) [0, 0, 0, 0, 0] 1 abcd 4 0 fs'' := by
  have hi : (diskOf [0, 0, 0, 0, 0]).ino ["f"] = some 1 := rfl
  have hfi : handle.fh.ino = 1 ∧ handle.fh.writable = true ∧ handle.directIo = false :=
    ⟨rfl, rfl, rfl⟩
  have hio : WriteIo.Ok {} := ⟨rfl, fun _ => rfl, fun _ => rfl⟩
  have hsyncIo : SyncIo.Ok {} := ⟨rfl, fun _ => rfl⟩
  obtain ⟨fs', r, fs'', hwrite, hsync, hiff⟩ := idsFaithful_iff (Config.onePage_tiny 2 false) rfl
    (.init ⟨diskOf [0, 0, 0, 0, 0], rfl⟩) hi abcd (by norm_num : 0 < 4)
    (by decide : 0 + 4 ≤ [0, 0, 0, 0, (0 : UInt8)].length) (by norm_num) hfi hio hio false hsyncIo
  exact ⟨fs', r, fs'', hwrite, hsync, hiff.mpr (by decide)⟩

/-! ### Block `2^31` -/

/-- A byte of block `2^31` is not sent to the backing file. -/
lemma FileView.Intact.kept_past {N B : ℕ} {c disk' : List UInt8} {f : FileView} (h : Intact N B c f)
    (hF : Flushed B f disk') {x : ℕ} (hx : 2 ^ 31 ≤ x / B) (hlt : x < f.disk.length) :
    disk'[x]? = f.disk[x]? := by
  refine hF.kept x hlt fun v hv => ?_
  obtain ⟨n, -, hn⟩ := h.ids _ (by rw [hv]; simp)
  have := toInt_lt n
  omega

/-- Four bytes are written to block `2^31` of a file of zeros, and the file is written back; the
zeros stay. -/
theorem write_not_sent : ∃ fs' fs'',
    FS.lfsWrite (.tiny 2 false) ⟨.new (.tiny 2 false), diskOf (List.replicate (2 ^ 33 + 4) 0)⟩
      ["f"] abcd 4
        (2 ^ 33) (some handle) {} {} = some (fs', 4) ∧
      fs'.lfsFsync (.tiny 2 false) ["f"] false {} = some (fs'', 0) ∧
      (fs''.disk.bytes 1)[2 ^ 33]? = some 0 ∧ abcd 0 = 97 ∧
      ¬ IdsFaithful (.tiny 2 false) (List.replicate (2 ^ 33 + 4) 0) 1 abcd 4 (2 ^ 33) fs'' := by
  have h := Config.onePage_tiny 2 false
  obtain ⟨c, hc⟩ : ∃ c, c = List.replicate (2 ^ 33 + 4) (0 : UInt8) := ⟨_, rfl⟩
  have hlen : c.length = 2 ^ 33 + 4 := by rw [hc, List.length_replicate]
  have hzero : (c)[2 ^ 33]? = some 0 := by
    rw [hc, List.getElem?_replicate, if_pos (by norm_num)]
  rw [← hc]
  have hI : FS.Intact (2 ^ 32) (.tiny 2 false) ⟨.new (.tiny 2 false), diskOf c⟩ (diskOf c).bytes :=
    FS.shows_new h (diskOf c) fun _ => .bare _ _ _
  -- two pages are enough for the block
  have hroom : FileView.Roomy (Config.tiny 2 false).ioBlockSize (min c.length (2 ^ 33))
      (2 ^ 33 + (abcd.read 0 4).length)
      (FS.file (.tiny 2 false) ⟨.new (.tiny 2 false), diskOf c⟩ 1,
        FS.free ⟨.new (.tiny 2 false), diskOf c⟩) := by
    refine FileView.roomy_of_le ?_
    rw [blocksOf, List.length_range', FS.free_new, hlen, Mem.length_read]
    norm_num [Config.tiny]
  have hne : abcd.read 0 4 ≠ [] := by decide
  have hi : (diskOf c).ino ["f"] = some 1 := rfl
  have hfi : handle.fh.ino = 1 ∧ handle.fh.writable = true ∧ handle.directIo = false :=
    ⟨rfl, rfl, rfl⟩
  have hio : WriteIo.Ok {} := ⟨rfl, fun _ => rfl, fun _ => rfl⟩
  -- the write is cached under a negative block id
  obtain ⟨fs', hwrite, hview, ht, hs'⟩ := hI.write h hi abcd (by norm_num : 0 < 4)
    (by norm_num : 2 ^ 33 + 4 ≤ 2 ^ 64) hfi hio hio (FS.enoughIfLru_of_off rfl _ _ _)
    ((hI.file 1).writeAt le_rfl h.pos hne (by rw [Mem.length_read]; norm_num [Config.tiny]))
  have hdisk := FileView.Roomy.disk_writeAt h.pos hne hroom
  obtain ⟨fs'', disk1, hsync, -, -, hF, -, hfile⟩ :=
    ht.sound.lfsFsync (by rw [ht.names.ino]; exact hi) (hs'.file 1).bounded false {}
  have hback : (fs'.file (.tiny 2 false) 1).disk = c :=
    (congrArg (fun v => v.1.disk) hview).trans hdisk
  -- the flush leaves the old byte
  have hstays : disk1[2 ^ 33]? = some 0 := by
    rw [(hs'.file 1).kept_past hF (by norm_num [Config.tiny]) (by rw [hback, hlen]; norm_num),
      hback, hzero]
  have hsent : (fs''.disk.bytes 1)[2 ^ 33]? = some 0 := by
    have hbytes : fs''.disk.bytes 1 = Bytes.resize disk1 (fs'.sizeOf 1) :=
      congrArg FileView.disk hfile
    rw [hbytes, ← hstays]
    refine Bytes.getElem?_resize_of_lt _ ?_ (List.getElem?_eq_some_iff.mp hstays).1
    rw [ht.sizeOf]
    omega
  refine ⟨fs', fs'', ?_, hsync, hsent, rfl, fun hg => ?_⟩
  · rw [hwrite, FS.writeResult_of_lt (by norm_num)]
    rfl
  · have hget := hg.sent 0 (by norm_num)
    rw [add_zero, hsent] at hget
    exact absurd hget (by decide)

end LazyFS
