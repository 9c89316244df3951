import LazyFS.Model.Lfscheck
import LazyFS.File.Room
import LazyFS.Guarantees.CrashConsistency
import LazyFS.Guarantees.ReadYourWrites

/-!
**The consistency checker raises no false alarm.**

* `CheckWorker.Saved`, `CheckWorker.Pending`: the buffers of a worker are the file when last synced,
  and what was written since; `Pending.remember`, `Pending.save` are what a write and an `fsync` do
  to them.
* `Mounted`: every file system call of a worker succeeds, and its file has the contents it expects.
* `Lfscheck.Inv`: what holds between any two calls; `Inv.step` is one case an action.
* `lfscheck_sound`: when a page is there for every block of the files, no assertion fails, whatever
  the order of the calls and of the clears.
* `lfscheck_aborts`: with fewer pages one can fail.
-/

namespace LazyFS

open Engine

/-! ### The buffers of a worker -/

namespace CheckWorker

variable {upper : ℕ} {c synced : List UInt8} {w : CheckWorker} {bt up : ℕ} {ch : UInt8}

/-- `file_buffer` and `file_size` are the file when it was last synced. -/
structure Saved (upper : ℕ) (synced : List UInt8) (w : CheckWorker) : Prop where
  size : w.fileSize = synced.length
  length_le : synced.length ≤ upper
  bytes : ∀ k : ℕ, w.fileBuffer k = synced.getD k 0
  beyond : ∀ k : ℕ, upper ≤ k → w.unsyncedBuf k = 0

/-- The contents differ from what was synced by what is in `unsynced_buf`. -/
structure Pending (upper : ℕ) (c synced : List UInt8) (w : CheckWorker) : Prop where
  range : (w.lastOffCheckBottom = -1 ∧ w.lastOffCheckUp = -1) ∨
    (0 ≤ w.lastOffCheckBottom ∧ w.lastOffCheckBottom ≤ w.lastOffCheckUp ∧ w.lastOffCheckUp < upper)
  inside : ∀ k : ℕ, w.unsyncedBuf k ≠ 0 → w.lastOffCheckBottom ≤ k ∧ k ≤ w.lastOffCheckUp
  length : (c.length : ℤ) = max (synced.length : ℤ) (w.lastOffCheckUp + 1)
  bytes : ∀ k : ℕ, c.getD k 0 = if w.unsyncedBuf k ≠ 0 then w.unsyncedBuf k else synced.getD k 0

/-- Nothing is left in `unsynced_buf`. -/
lemma Saved.unsyncedBuf_forget (h : w.Saved upper synced)
    (k : ℕ) : (w.forget upper).unsyncedBuf k = 0 := by
  rw [forget]
  dsimp only
  rcases Nat.lt_or_ge k upper with hk | hk
  · rw [memset, if_pos (by omega)]
  · rw [memset_of_not_mem _ _ _ _ (.inr (by omega)), h.beyond k hk]

/-- The buffer of what was synced holds the synced file. -/
lemma Saved.read (h : w.Saved upper synced) : w.fileBuffer.read 0 synced.length = synced := by
  refine List.ext_getElem? fun k => ?_
  rcases Nat.lt_or_ge k synced.length with hk | hk
  · rw [Mem.getElem?_read _ _ hk, zero_add, h.bytes k, List.getD_eq_getElem?_getD,
      List.getElem?_eq_getElem hk, Option.getD_some]
  · rw [List.getElem?_eq_none (by rwa [Mem.length_read]), List.getElem?_eq_none hk]

lemma Saved.goTo (h : w.Saved upper synced) (phase : CheckPhase) :
    ({ w with phase := phase } : CheckWorker).Saved upper synced :=
  ⟨h.size, h.length_le, h.bytes, h.beyond⟩

lemma Pending.goTo (h : w.Pending upper c synced) (phase : CheckPhase) :
    ({ w with phase := phase } : CheckWorker).Pending upper c synced :=
  ⟨h.range, h.inside, h.length, h.bytes⟩

lemma Saved.forget (h : w.Saved upper synced) : (w.forget upper).Saved upper synced :=
  ⟨h.size, h.length_le, h.bytes, fun k _ => h.unsyncedBuf_forget k⟩

/-- After a check nothing was written since the last sync. -/
lemma Saved.pending_forget (h : w.Saved upper synced) :
    (w.forget upper).Pending upper synced synced where
  range := .inl ⟨rfl, rfl⟩
  inside := fun k hk => absurd (h.unsyncedBuf_forget k) hk
  length := by
    have : (0 : ℤ) ≤ synced.length := Int.natCast_nonneg _
    simp [CheckWorker.forget]
  bytes := fun k => by rw [h.unsyncedBuf_forget k, if_neg (by simp)]

/-- The range of a write in `unsynced_buf`. -/
lemma unsyncedBuf_remember (w : CheckWorker) (k : ℕ) :
    (w.remember bt up ch).unsyncedBuf k = if bt ≤ k ∧ k ≤ up then ch else w.unsyncedBuf k := by
  simp only [remember, memset]
  refine if_congr ?_ rfl rfl
  omega

/-- The bounds of what was written, after a write. -/
lemma Pending.bounds_remember (h : w.Pending upper c synced) (bt up : ℕ) (ch : UInt8) :
    (w.lastOffCheckBottom = -1 ∧ w.lastOffCheckUp = -1 ∧
      (w.remember bt up ch).lastOffCheckBottom = bt ∧ (w.remember bt up ch).lastOffCheckUp = up) ∨
    (0 ≤ w.lastOffCheckBottom ∧ w.lastOffCheckBottom ≤ w.lastOffCheckUp ∧ w.lastOffCheckUp < upper ∧
      (w.remember bt up ch).lastOffCheckBottom = min w.lastOffCheckBottom bt ∧
      (w.remember bt up ch).lastOffCheckUp = max w.lastOffCheckUp up) := by
  rcases h.range with ⟨h1, h2⟩ | ⟨h1, h2, h3⟩
  · refine .inl ⟨h1, h2, ?_⟩
    simp only [remember, h1, h2, if_true]
    rw [if_pos (by omega), if_pos (by omega)]
    omega
  · refine .inr ⟨h1, h2, h3, ?_⟩
    have hbottom : w.lastOffCheckBottom ≠ -1 := by omega
    have htop : w.lastOffCheckUp ≠ -1 := by omega
    simp only [remember, hbottom, htop, if_false, ne_eq, not_false_eq_true, and_self, if_true]

/-- **A write that was read back** is remembered. -/
lemma Pending.remember (h : w.Pending upper c synced) (hle : bt ≤ up) (hup : up < upper)
    (hch : ch ≠ 0) : (w.remember bt up ch).Pending upper
      (Bytes.write c bt (List.replicate (up - bt + 1) ch)) synced := by
  have hne : List.replicate (up - bt + 1) ch ≠ [] := by simp
  have hlen : (List.replicate (up - bt + 1) ch).length = up - bt + 1 := List.length_replicate
  have hbounds := h.bounds_remember bt up ch
  have hlength := h.length
  refine ⟨?_, fun k hk => ?_, ?_, fun k => ?_⟩
  · omega
  · rw [unsyncedBuf_remember w] at hk
    split_ifs at hk with hin
    · omega
    · have := h.inside k hk
      omega
  · rw [Bytes.length_write _ _ hne, hlen]
    omega
  · rw [Bytes.getD_write _ _ hne, hlen, unsyncedBuf_remember w]
    by_cases hin : bt ≤ k ∧ k ≤ up
    · rw [if_pos hin, if_pos (by omega), if_pos hch, List.getD_eq_getElem?_getD,
        List.getElem?_replicate, if_pos (by omega), Option.getD_some]
    · rw [if_neg hin, if_neg (by omega), h.bytes k]

lemma Saved.remember (h : w.Saved upper synced) (hup : up < upper) :
    (w.remember bt up ch).Saved upper synced :=
  ⟨h.size, h.length_le, h.bytes, fun k hk => by
    rw [unsyncedBuf_remember w, if_neg (by omega), h.beyond k hk]⟩

/-- **After an `fsync`** the buffer of what was synced is the contents. -/
lemma Saved.save (h : w.Saved upper synced) (hp : w.Pending upper c synced) :
    (w.save upper).Saved upper c := by
  have hrange := hp.range
  have hlength := hp.length
  have hle := h.length_le
  refine ⟨?_, by omega, fun k => ?_, fun k hk => ?_⟩
  · rw [CheckWorker.save, CheckWorker.forget]
    dsimp only
    rw [h.size, hlength]
  · rw [hp.bytes k]
    change w.mergeSynced k = _
    rw [mergeSynced]
    by_cases hk : w.unsyncedBuf k ≠ 0
    · rw [if_pos ⟨(hp.inside k hk).1, (hp.inside k hk).2, hk⟩, if_pos hk]
    · rw [if_neg (fun hc => hk hc.2.2), if_neg hk, h.bytes k]
  · exact h.unsyncedBuf_forget k

/-- And nothing was written since. -/
lemma Saved.pending_save (h : w.Saved upper synced) (hp : w.Pending upper c synced) :
    (w.save upper).Pending upper c c := by
  have hforget := (h.save hp).pending_forget
  refine ⟨hforget.range, fun k hk => absurd ?_ hk, hforget.length, fun k => ?_⟩
  · exact h.unsyncedBuf_forget k
  · rw [show (w.save upper).unsyncedBuf k = 0 from h.unsyncedBuf_forget k, if_neg (by simp)]

end CheckWorker

/-! ### The mounted file system -/

section

variable {cfg : Config}

/-- The blocks of the files of the workers, with their inodes. -/
def checkBlocks (B : ℕ) (args : CheckArgs) (ino : ℕ → ℕ) : Finset (ℕ × ℤ) :=
  (Finset.range args.gNrThreads ×ˢ Finset.range ((args.upperBoundWrite - 1) / B + 1)).image
    fun x => (ino x.1, (x.2 : ℤ))

/-- There are no more of them than pages. -/
def CheckArgs.Fits (args : CheckArgs) (cfg : Config) : Prop :=
  args.gNrThreads * ((args.upperBoundWrite - 1) / cfg.ioBlockSize + 1) ≤ cfg.cacheNrPages

/-- Every worker has a path of its own file, every file has its contents and its synced ones, and
only blocks of the workers' files are in pages. -/
structure Mounted (cfg : Config) (args : CheckArgs) (ino : ℕ → ℕ) (fs : FS)
    (c synced : ℕ → List UInt8) : Prop where
  inv : CrashState.Inv cfg ⟨fs, c, synced⟩
  holding : FS.Holding cfg fs c
  names : ∀ tid < args.gNrThreads, fs.disk.ino (workerPath tid) = some (ino tid)
  resident : ∀ j, FileView.Ids (fun b => (j, b) ∈ checkBlocks cfg.ioBlockSize args ino)
    (fs.file cfg j)

variable {args : CheckArgs} {ino : ℕ → ℕ} {fs : FS} {c synced : ℕ → List UInt8} {tid : ℕ}

lemma card_checkBlocks (B : ℕ) (args : CheckArgs) (ino : ℕ → ℕ) :
    (checkBlocks B args ino).card ≤ args.gNrThreads * ((args.upperBoundWrite - 1) / B + 1) := by
  refine Finset.card_image_le.trans_eq ?_
  rw [Finset.card_product, Finset.card_range, Finset.card_range]

/-- The blocks below the largest offset. -/
lemma mem_checkBlocks {B : ℕ} (hB : 0 < B) (ht : tid < args.gNrThreads)
    (hupper : args.upperBoundWrite ≤ maxWriteOff) {n : ℕ} (hn : n * B < args.upperBoundWrite) :
    (ino tid, toInt n) ∈ checkBlocks B args ino := by
  have hle : n ≤ n * B := Nat.le_mul_of_pos_right n hB
  rw [toInt_of_lt (by rw [maxWriteOff] at hupper; omega)]
  refine Finset.mem_image.mpr ⟨(tid, n), Finset.mem_product.mpr ⟨Finset.mem_range.mpr ht, ?_⟩, rfl⟩
  have hdiv : n ≤ (args.upperBoundWrite - 1) / B := (Nat.le_div_iff_mul_le hB).mpr (by omega)
  exact Finset.mem_range.mpr (by omega)

/-- A page is there for every block of a worker's file. -/
lemma Mounted.roomy (hm : Mounted cfg args ino fs c synced) (hB : 0 < cfg.ioBlockSize)
    (hfits : args.Fits cfg) (ht : tid < args.gNrThreads)
    (hupper : args.upperBoundWrite ≤ maxWriteOff) {offset stop : ℕ} (hlt : offset < stop)
    (hstop : stop ≤ args.upperBoundWrite) :
    FileView.Roomy cfg.ioBlockSize offset stop (fs.file cfg (ino tid), fs.free) := by
  refine hm.inv.keeps.sound.missing_le_free hm.resident ((card_checkBlocks _ _ _).trans hfits) ?_
  intro b hb
  obtain ⟨n, hn, rfl⟩ := List.mem_map.mp (List.mem_toFinset.mp hb)
  have hmem := (mem_blocksOf hB hlt).mp hn
  exact mem_checkBlocks hB ht hupper (by omega)

/-- A call that leaves the blocks of every file where they are. -/
lemma Mounted.next {fs' : FS} {c' synced' : ℕ → List UInt8} (hm : Mounted cfg args ino fs c synced)
    (hinv : CrashState.Inv cfg ⟨fs', c', synced'⟩) (hh : FS.Holding cfg fs' c')
    (hnames : Disk.SameNames fs.disk fs'.disk)
    (hres : ∀ j b, (fs'.file cfg j).blocks b ≠ none → (fs.file cfg j).blocks b ≠ none) :
    Mounted cfg args ino fs' c' synced' where
  inv := hinv
  holding := hh
  names := fun tid ht => (hnames.ino _).trans (hm.names tid ht)
  resident := fun j b hb => hm.resident j b (hres j b hb)

/-- The file is opened. -/
lemma Mounted.reopen (hm : Mounted cfg args ino fs c synced) (ht : tid < args.gNrThreads)
    (io fillIo : WriteIo) :
    ∃ fs', fs.lfsOpen cfg (workerPath tid) checkFlags io fillIo
        = some (fs', 0, some ⟨ino tid, true, true⟩) ∧ Mounted cfg args ino fs' c synced := by
  have hi := hm.names tid ht
  obtain ⟨fs', st, hget, -, hopen, hk⟩ := hm.inv.keeps.getattr hi
  obtain ⟨fs1, st1, hget1, -, -, hh⟩ := hm.holding.getattr hi
  obtain ⟨rfl, -⟩ := Prod.mk.inj (Option.some.inj (hget.symm.trans hget1))
  have hfd : fs.openFile (workerPath tid) checkFlags = some ⟨ino tid, true, true⟩ := by
    rw [FS.openFile, hi]
    rfl
  refine ⟨fs', ?_, hm.next ⟨hk, fun j => ?_⟩ hh hopen.touched.names fun j b hb => ?_⟩
  · rw [FS.lfsOpen, hfd]
    simp only [hget, Option.bind_eq_bind, Option.bind_some]
    rfl
  · exact (congrFun (congrArg Disk.bytes hopen.disk) j).trans (hm.inv.disk j)
  · rwa [hopen.file j] at hb

/-- The file is read. -/
lemma Mounted.read (h : OnePage cfg) (hm : Mounted cfg args ino fs c synced)
    (ht : tid < args.gNrThreads) (buf : Mem) {size offset : ℕ}
    (hr : InReach cfg.ioBlockSize size offset) {io : ReadIo} (hio : FS.ReadIo.Ok io) :
    ∃ fs' buf', fs.lfsRead cfg (workerPath tid)
      buf size offset (some ⟨⟨ino tid, true, true⟩, false⟩) io
        = some (fs', ((min size ((c (ino tid)).length - offset) : ℕ) : ℤ), buf') ∧
      buf'.read 0 (min size ((c (ino tid)).length - offset))
        = Bytes.slice (c (ino tid)) offset size ∧
      Mounted cfg args ino fs' c synced := by
  have hi := hm.names tid ht
  have hfi : FS.ReadHandle (ino tid) (some ⟨⟨ino tid, true, true⟩, false⟩) := by
    rintro f hf
    obtain rfl := Option.some.inj hf
    exact ⟨rfl, rfl⟩
  have hk := hm.inv.keeps
  obtain ⟨fs', r, buf', hread, hfile, -, htouch, hk', -⟩ := hk.read h.pos hi (hk.file _).holds
    (hk.file _).bounded buf hr.size_pos hr.end_le_word hfi hio
  obtain ⟨fs1, buf1, hread1, hbuf1, -, hh⟩ := hm.holding.read_whole h hi buf hr hfi hio
  obtain ⟨rfl, hrest⟩ := Prod.mk.inj (Option.some.inj (hread.symm.trans hread1))
  have hall : ∀ j, fs'.file cfg j = fs.file cfg j := by
    intro j
    by_cases hj : j = ino tid
    · rw [hj]
      exact hfile
    · exact htouch.file j hj
  refine ⟨fs', buf1, hread1, hbuf1, hm.next ⟨hk', fun j => ?_⟩ hh htouch.names fun j b hb => ?_⟩
  · exact (FS.bytes_eq_of_file (hall j)).trans (hm.inv.disk j)
  · rwa [hall j] at hb

/-- The file is written. -/
lemma Mounted.write (h : OnePage cfg) (hlru : cfg.applyLruEviction = false) (hfits : args.Fits cfg)
    (hupper : args.upperBoundWrite ≤ maxWriteOff) (hm : Mounted cfg args ino fs c synced)
    (ht : tid < args.gNrThreads) (buf : Mem) {size offset : ℕ} (hsize : 0 < size)
    (hend : offset + size ≤ args.upperBoundWrite) {io fillIo : WriteIo} (hio : io.Ok)
    (hfillIo : fillIo.Ok) :
    ∃ fs', fs.lfsWrite cfg (workerPath tid) buf size offset
        (some ⟨⟨ino tid, true, true⟩, false⟩) io fillIo = some (fs', (size : ℤ)) ∧
      Mounted cfg args ino fs' (Function.update c (ino tid)
        (Bytes.write (c (ino tid)) offset (buf.read 0 size))) synced := by
  have hB := h.pos
  have hB2 := h.two_le
  have hi := hm.names tid ht
  have hk := hm.inv.keeps
  -- the range of a worker is far below what the types hold
  have hmax : args.upperBoundWrite ≤ maxSize cfg.ioBlockSize := by
    rw [maxSize]
    rw [maxWriteOff] at hupper
    omega
  have hspan : offset + size ≤ FileView.span cfg.ioBlockSize := by
    rw [FileView.span]
    rw [maxWriteOff] at hupper
    omega
  have hlen : (buf.read 0 size).length = size := Mem.length_read _ _ _
  have hne : buf.read 0 size ≠ [] := by
    rw [← List.length_pos_iff, hlen]
    exact hsize
  have hfi : (⟨⟨ino tid, true, true⟩, false⟩ : FileInfo).fh.ino = ino tid ∧ true = true ∧
      false = false :=
    ⟨rfl, rfl, rfl⟩
  have hword : offset + size ≤ 2 ^ 64 := by
    rw [maxWriteOff] at hupper
    omega
  -- the write as one that keeps the files, and as one that fills their blocks
  obtain ⟨fs', hwrite, hview, htouch, hk'⟩ :=
    hk.write h hi buf hsize hword hfi hio hfillIo (FS.enoughIfLru_of_off hlru _ _ _)
    (FileView.Kept.writeAt (s := (fs.file cfg (ino tid), fs.free)) (hk.file _) hB hne (by omega))
  obtain ⟨fs1, hwrite1, -, -, hh⟩ :=
    hm.holding.write h hi buf hsize hword hfi hio hfillIo (FS.enoughIfLru_of_off hlru _ _ _)
    (FileView.Whole.writeAt (s := (fs.file cfg (ino tid), fs.free)) (hm.holding.file _) hB hne
      (by rw [hlen]; exact hspan))
  obtain ⟨rfl, -⟩ := Prod.mk.inj (Option.some.inj (hwrite.symm.trans hwrite1))
  -- there is a free page for every block, so the disk stays
  have hroom : FileView.Roomy cfg.ioBlockSize (min (c (ino tid)).length offset) (offset + size)
      (fs.file cfg (ino tid), fs.free) := hm.roomy hB hfits ht hupper (by omega) hend
  have hfile := (Prod.mk.inj hview).1
  have hdisk : (fs'.file cfg (ino tid)).disk = (fs.file cfg (ino tid)).disk := by
    rw [hfile]
    exact FileView.Roomy.disk_writeAt (s := (fs.file cfg (ino tid), fs.free))
      hB hne (by rw [hlen]; exact hroom)
  rw [FS.writeResult_of_lt (by rw [maxWriteOff] at hupper; omega)] at hwrite
  refine ⟨fs', hwrite, ⟨hk', fun j => ?_⟩, hh,
    fun t ht' => (htouch.names.ino _).trans (hm.names t ht'),
    fun j => ?_⟩
  · -- the disk
    refine Eq.trans ?_ (hm.inv.disk j)
    -- the blocks that are resident
    by_cases hj : j = ino tid
    · rw [hj]
      exact hdisk
    · exact FS.bytes_eq_of_file (htouch.file j hj)
  · by_cases hj : j = ino tid
    · rw [hj, hfile]
      exact FileView.Ids.writeAt (s := (fs.file cfg (ino tid), fs.free)) (hm.resident _) hB hne
        fun n hn => mem_checkBlocks hB ht hupper (by omega)
    · rw [htouch.file j hj]
      exact hm.resident j

/-- The file is synced. -/
lemma Mounted.fsync (h : OnePage cfg) (hm : Mounted cfg args ino fs c synced)
    (ht : tid < args.gNrThreads) {io : SyncIo} (hio : io.Ok) (hcut : io.ftruncateOk = true) :
    ∃ fs', fs.lfsFsync cfg (workerPath tid) false io = some (fs', 0) ∧
      Mounted cfg args ino fs' c (Function.update synced (ino tid) (c (ino tid))) := by
  have hi := hm.names tid ht
  obtain ⟨fs', hsync, -, htouch, hfile, hk'⟩ := hm.inv.keeps.fsync_kept hi false
    ⟨fun _ _ _ _ => hio, .inl ⟨hio.openOk, hcut⟩⟩
  obtain ⟨fs1, hsync1, -, -, hh⟩ := hm.holding.fsync hi (hm.holding.file _).bounded false io
    fun disk1 hF _ => (hm.holding.file _).cleaned h.pos hF
      (by split_ifs; exacts [.inr rfl, .inl rfl])
  obtain ⟨rfl, -⟩ := Prod.mk.inj (Option.some.inj (hsync.symm.trans hsync1))
  refine ⟨fs', hsync, hm.next ⟨hk', fun j => ?_⟩ hh htouch.names fun j b hb => ?_⟩
  · dsimp only
    by_cases hj : j = ino tid
    · rw [hj, Function.update_self]
      exact congrArg FileView.disk hfile
    · rw [Function.update_of_ne hj]
      exact (FS.bytes_eq_of_file (htouch.file j hj)).trans (hm.inv.disk j)
  · by_cases hj : j = ino tid
    · rw [hj, hfile, FileView.blocks_cleaned] at hb
      rw [hj]
      exact fun hnone => hb (by rw [hnone]; rfl)
    · rwa [htouch.file j hj] at hb

/-- The cache is cleared. -/
lemma Mounted.clear (h : OnePage cfg) (hm : Mounted cfg args ino fs c synced) :
    Mounted cfg args ino (fs.clearAllCache cfg) synced synced := by
  have hfun : fs.disk.bytes = synced := funext hm.inv.disk
  have hk := hm.inv.keeps.clear h fun i => .bare (hm.inv.keeps.file i).disk_le
  have hh := hm.holding.clear h fun i => .bare _ _
  rw [hfun] at hk hh
  obtain ⟨-, hdisk, -, hfile, -⟩ := hm.inv.keeps.sound.clearAllCache h
  refine hm.next ⟨hk, fun j => ?_⟩ hh (hdisk ▸ .refl _) fun j b hb => ?_
  · exact (congrFun (congrArg Disk.bytes hdisk) j).trans (hm.inv.disk j)
  · rw [hfile] at hb
    exact absurd rfl hb

/-! ### Between two calls -/

/-- What the contents of a file are for its worker: what was synced, when a clear is still to be
checked, and otherwise that with what is in `unsynced_buf`. -/
def CheckWorker.Knows (upper : ℕ) (c synced : List UInt8) (check : Bool) (w : CheckWorker) : Prop :=
  if check then c = synced else w.Pending upper c synced

lemma CheckWorker.Knows.goTo {upper : ℕ} {c synced : List UInt8} {check : Bool} {w : CheckWorker}
    (h : w.Knows upper c synced check) (phase : CheckPhase) :
    ({ w with phase := phase } : CheckWorker).Knows upper c synced check := by
  rw [CheckWorker.Knows] at h ⊢
  split_ifs at h ⊢ with hcheck
  · exact h
  · exact h.goTo phase

/-- The same, by where the loop of the worker is: a write is remembered when it was read back. -/
def CheckWorker.Expects (upper : ℕ) (c synced : List UInt8) (check : Bool)
    (w : CheckWorker) : Prop :=
  match w.phase with
  | .reopened => c = synced
  | .compared | .readBack => check = false ∧ w.Pending upper c synced
  | .written bt up ch => check = false ∧ bt ≤ up ∧ up < upper ∧ ch ≠ 0 ∧ ∃ before,
      w.Pending upper before synced ∧ c = Bytes.write before bt (List.replicate (up - bt + 1) ch)
  | .head | .waiting | .entered | .finished => w.Knows upper c synced check

/-- The variables of a worker are right about its file. -/
structure CheckWorker.Right (upper i : ℕ) (c synced : List UInt8) (check : Bool)
    (w : CheckWorker) : Prop where
  fd : w.fdOperations = some ⟨i, true, true⟩
  saved : w.Saved upper synced
  expects : w.Expects upper c synced check

/-- **What holds between any two calls**: no assertion has failed, and every worker is right about
its file. -/
structure Lfscheck.Inv (cfg : Config) (args : CheckArgs) (ino : ℕ → ℕ) (s : Lfscheck)
    (c synced : ℕ → List UInt8) : Prop where
  mounted : Mounted cfg args ino s.fs c synced
  worker : ∀ tid < args.gNrThreads, (s.workers tid).Right args.upperBoundWrite (ino tid)
    (c (ino tid))
    (synced (ino tid)) (s.threadCheckFile tid)
  running : s.aborted = false

/-- The backing calls of an action succeed in full. -/
def CheckAction.Fine : CheckAction → Prop
  | .compare _ _ io | .pread _ _ io => FS.ReadIo.Ok io
  | .pwrite _ _ _ _ io fillIo => io.Ok ∧ fillIo.Ok
  | .fsync _ _ io => io.Ok ∧ io.ftruncateOk = true
  | _ => True

namespace Lfscheck

variable {s : Lfscheck}

/-- The worker `tid` goes on, and the file of no other worker changes. -/
lemma Inv.update (hs : s.Inv cfg args ino c synced) (tid : ℕ) {s' : Lfscheck}
    {c' synced' : ℕ → List UInt8} (hm : Mounted cfg args ino s'.fs c' synced')
    (hrun : s'.aborted = false)
    (hw : (s'.workers tid).Right args.upperBoundWrite (ino tid) (c' (ino tid)) (synced' (ino tid))
      (s'.threadCheckFile tid))
    (hother : ∀ t < args.gNrThreads, t ≠ tid → s'.workers t = s.workers t ∧
      s'.threadCheckFile t = s.threadCheckFile t ∧ c' (ino t) = c (ino t) ∧
        synced' (ino t) = synced (ino t)) :
    s'.Inv cfg args ino c' synced' := by
  refine ⟨hm, fun t ht => ?_, hrun⟩
  by_cases htid : t = tid
  · rw [htid]
    exact hw
  · obtain ⟨h1, h2, h3, h4⟩ := hother t ht htid
    rw [h1, h2, h3, h4]
    exact hs.worker t ht

/-- The worker goes to another place of its loop. -/
lemma Inv.goTo (hs : s.Inv cfg args ino c synced) (ht : tid < args.gNrThreads) {phase : CheckPhase}
    (h : ({ s.workers tid with phase := phase } : CheckWorker).Expects
      args.upperBoundWrite (c (ino tid))
      (synced (ino tid)) (s.threadCheckFile tid)) :
      (s.goTo tid phase).Inv cfg args ino c synced := by
  have hw := hs.worker tid ht
  refine hs.update tid hs.mounted hs.running ?_ fun t _ hne => ⟨?_, rfl, rfl, rfl⟩
  · change (Function.update s.workers tid _ tid).Right _ _ _ _ _
    rw [Function.update_self]
    exact ⟨hw.fd, hw.saved.goTo _, h⟩
  · exact Function.update_of_ne hne _ _

/-- The file of another worker. -/
lemma ino_ne (hino : Set.InjOn ino (Set.Iio args.gNrThreads)) {t : ℕ} (ht : tid < args.gNrThreads)
    (ht' : t < args.gNrThreads) (hne : t ≠ tid) : ino t ≠ ino tid :=
  fun heq => hne (hino ht' ht heq)

/-- The file is opened again. -/
lemma Inv.reopenFile (hs : s.Inv cfg args ino c synced) (ht : tid < args.gNrThreads)
    (hc : c (ino tid) = synced (ino tid)) (io fillIo : WriteIo) :
    ∃ s', s.reopenFile cfg tid io fillIo = some s' ∧ s'.Inv cfg args ino c synced := by
  obtain ⟨fs', hopen, hm⟩ := hs.mounted.reopen ht io fillIo
  have hw := hs.worker tid ht
  have hstep : s.reopenFile cfg tid io fillIo = some ({ s with fs := fs' }.setWorker tid
      { s.workers tid with phase := .reopened, fdOperations := some ⟨ino tid, true, true⟩ }) := by
    rw [Lfscheck.reopenFile, hopen, Option.map_some]
  refine ⟨_, hstep, hs.update tid hm hs.running ?_ fun t _ hne => ⟨?_, rfl, rfl, rfl⟩⟩
  · change (Function.update s.workers tid _ tid).Right _ _ _ _ _
    rw [Function.update_self]
    exact ⟨rfl, ⟨hw.saved.size, hw.saved.length_le, hw.saved.bytes, hw.saved.beyond⟩, hc⟩
  · exact Function.update_of_ne hne _ _

/-- **The check succeeds**: the file is what was synced. -/
lemma Inv.compareFile (h : OnePage cfg) (hupper : args.upperBoundWrite ≤ maxWriteOff)
    (hpos : 0 < args.upperBoundWrite) (hs : s.Inv cfg args ino c synced)
    (ht : tid < args.gNrThreads) (hc : c (ino tid) = synced (ino tid)) (buf : Mem) {io : ReadIo}
    (hio : FS.ReadIo.Ok io) :
    ∃ s', s.compareFile cfg args tid buf io = some s' ∧ s'.Inv cfg args ino c synced := by
  have hw := hs.worker tid ht
  have hle := hw.saved.length_le
  have hreach : InReach cfg.ioBlockSize args.upperBoundWrite 0 := by
    have h2 := h.two_le
    rw [maxWriteOff] at hupper
    exact ⟨hpos, by omega, by omega, by norm_num⟩
  obtain ⟨fs', buf', hread, hbuf, hm⟩ := hs.mounted.read h ht buf hreach hio
  have hmin : min args.upperBoundWrite ((c (ino tid)).length - 0) = (synced (ino tid)).length := by
    rw [hc]
    omega
  have hfile : Bytes.slice (c (ino tid)) 0 args.upperBoundWrite = synced (ino tid) := by
    rw [hc, Bytes.slice, List.drop_zero, List.take_of_length_le hle]
  rw [hmin] at hread hbuf
  rw [hfile] at hbuf
  have hstep : s.compareFile cfg args tid buf io = some ({ s with
      fs := fs'
      threadCheckFile := Function.update s.threadCheckFile tid false }.setWorker tid
        { (s.workers tid).forget args.upperBoundWrite with phase := .compared }) := by
    rw [Lfscheck.compareFile, preadFile, hw.fd]
    simp only [hread, Option.map_some, hw.saved.size, Int.toNat_natCast, hbuf, hw.saved.read,
      decide_true, Bool.and_self, Lfscheck.assert, Bool.not_true, Bool.or_false]
  refine ⟨_, hstep, hs.update tid hm hs.running ?_ fun t _ hne => ⟨?_, ?_, rfl, rfl⟩⟩
  · change (Function.update s.workers tid _ tid).Right _ _ _ _
      (Function.update s.threadCheckFile tid false tid)
    rw [Function.update_self, Function.update_self]
    have hforget := hw.saved.forget
    have hpending := hw.saved.pending_forget
    refine ⟨hw.fd, hforget.goTo _, rfl, ?_⟩
    rw [hc]
    exact hpending.goTo _
  · exact Function.update_of_ne hne _ _
  · exact Function.update_of_ne hne _ _

/-- **The write is complete.** -/
lemma Inv.writeRange (h : OnePage cfg) (hlru : cfg.applyLruEviction = false) (hfits : args.Fits cfg)
    (hupper : args.upperBoundWrite ≤ maxWriteOff) (hino : Set.InjOn ino (Set.Iio args.gNrThreads))
    (hs : s.Inv cfg args ino c synced) (ht : tid < args.gNrThreads) {bt up : ℕ} {ch : UInt8}
    (hle : bt ≤ up) (hup : up < args.upperBoundWrite) (hch : ch ≠ 0)
    (hexp : s.threadCheckFile tid = false ∧
      (s.workers tid).Pending args.upperBoundWrite (c (ino tid)) (synced (ino tid)))
    {io fillIo : WriteIo} (hio : io.Ok) (hfillIo : fillIo.Ok) :
    ∃ s' c', s.writeRange cfg tid bt up ch io fillIo = some s' ∧ s'.Inv cfg args ino c' synced := by
  have hw := hs.worker tid ht
  have hend : bt + (up - bt + 1) ≤ args.upperBoundWrite := by omega
  obtain ⟨fs', hwrite, hm⟩ :=
    hs.mounted.write h hlru hfits hupper ht (fun _ => ch) (Nat.succ_pos _) hend hio hfillIo
  rw [Mem.read_const] at hm
  have hstep : s.writeRange cfg tid bt up ch io fillIo
      = some ({ s with fs := fs' }.goTo tid (.written bt up ch)) := by
    rw [Lfscheck.writeRange, pwriteFile, hw.fd]
    simp only [hwrite, Option.map_some, decide_true, Lfscheck.assert, Bool.not_true, Bool.or_false]
  refine ⟨_, _, hstep, hs.update tid hm hs.running ?_ fun t ht' hne =>
    ⟨?_, rfl, Function.update_of_ne (ino_ne hino ht ht' hne) _ _, rfl⟩⟩
  · change (Function.update s.workers tid _ tid).Right _ _ _ _ _
    rw [Function.update_self, Function.update_self]
    exact ⟨hw.fd, hw.saved.goTo _,
      hexp.1, hle, hup, hch, _, hexp.2.goTo _, rfl⟩
  · exact Function.update_of_ne hne _ _

/-- **The write is read back.** -/
lemma Inv.readRange (h : OnePage cfg) (hupper : args.upperBoundWrite ≤ maxWriteOff)
    (hs : s.Inv cfg args ino c synced) (ht : tid < args.gNrThreads) {bt up : ℕ} {ch : UInt8}
    (hphase : (s.workers tid).phase = .written bt up ch) (buf : Mem) {io : ReadIo}
    (hio : FS.ReadIo.Ok io) :
    ∃ s', s.readRange cfg tid bt up ch buf io = some s' ∧ s'.Inv cfg args ino c synced := by
  have hw := hs.worker tid ht
  have hexp := hw.expects
  rw [CheckWorker.Expects, hphase] at hexp
  obtain ⟨hcheck, hle, hup, hch, before, hbefore, hc⟩ := hexp
  have hlen : (List.replicate (up - bt + 1) ch).length = up - bt + 1 := List.length_replicate
  -- the range is within what a read returns whole
  have hreach : InReach cfg.ioBlockSize (up - bt + 1) bt := by
    have h2 := h.two_le
    rw [maxWriteOff] at hupper
    exact ⟨by omega, by omega, by omega, by omega⟩
  obtain ⟨fs', buf', hread, hbuf, hm⟩ := hs.mounted.read h ht buf hreach hio
  have hclen : bt + (up - bt + 1) ≤ (c (ino tid)).length := by
    rw [hc, Bytes.length_write _ _ (by simp), hlen]
    exact le_max_right _ _
  -- it holds what the worker has written
  have hslice : Bytes.slice (c (ino tid)) bt (up - bt + 1) = List.replicate (up - bt + 1) ch := by
    refine List.ext_getElem? fun k => ?_
    rcases Nat.lt_or_ge k (up - bt + 1) with hk | hk
    · rw [Bytes.getElem?_slice _ hk, hc, Bytes.getElem?_write_of_mem _ (by omega) (by omega)]
      congr 1
      omega
    · rw [List.getElem?_eq_none (by rw [Bytes.slice, List.length_take]; omega),
        List.getElem?_eq_none (by rwa [hlen])]
  rw [show min (up - bt + 1) ((c (ino tid)).length - bt) = up - bt + 1 by omega] at hread hbuf
  rw [hslice] at hbuf
  -- so the assertion holds
  have hstep : s.readRange cfg tid bt up ch buf io = some ({ s with fs := fs' }.setWorker tid
      { (s.workers tid).remember bt up ch with phase := .readBack }) := by
    rw [Lfscheck.readRange, preadFile, hw.fd]
    simp only [hread, Option.map_some, hbuf, decide_true, Bool.and_self,
      Lfscheck.assert, Bool.not_true, Bool.or_false]
  refine ⟨_, hstep, hs.update tid hm hs.running ?_ fun t _ hne => ⟨?_, rfl, rfl, rfl⟩⟩
  · change (Function.update s.workers tid _ tid).Right _ _ _ _ _
    rw [Function.update_self]
    have hsaved : ((s.workers tid).remember bt up ch).Saved args.upperBoundWrite
        (synced (ino tid)) :=
      hw.saved.remember hup
    have hpending := hbefore.remember hle hup hch
    rw [← hc] at hpending
    exact ⟨hw.fd, hsaved.goTo _,
      hcheck, hpending.goTo _⟩
  · exact Function.update_of_ne hne _ _

/-- **What was written is synced.** -/
lemma Inv.syncFile (h : OnePage cfg) (hino : Set.InjOn ino (Set.Iio args.gNrThreads))
    (hs : s.Inv cfg args ino c synced) (ht : tid < args.gNrThreads)
    (hexp : s.threadCheckFile tid = false ∧
      (s.workers tid).Pending args.upperBoundWrite (c (ino tid)) (synced (ino tid)))
    {io : SyncIo} (hio : io.Ok) (hcut : io.ftruncateOk = true) :
    ∃ s' synced', s.syncFile cfg args tid io = some s' ∧ s'.Inv cfg args ino c synced' := by
  have hw := hs.worker tid ht
  obtain ⟨fs', hsync, hm⟩ := hs.mounted.fsync h ht hio hcut
  have hstep : s.syncFile cfg args tid io = some ({ s with fs := fs' }.setWorker tid
      { (s.workers tid).save args.upperBoundWrite with phase := .head }) := by
    rw [Lfscheck.syncFile, fsyncFile, hw.fd]
    simp only [hsync, Option.map_some, le_refl, decide_true, Lfscheck.assert,
      Bool.not_true, Bool.or_false]
  refine ⟨_, _, hstep, hs.update tid hm hs.running ?_ fun t ht' hne =>
    ⟨?_, rfl, rfl, Function.update_of_ne (ino_ne hino ht ht' hne) _ _⟩⟩
  · change (Function.update s.workers tid _ tid).Right _ _ _ _ _
    rw [Function.update_self, Function.update_self]
    have hsaved := hw.saved.save hexp.2
    have hpending := hw.saved.pending_save hexp.2
    refine ⟨hw.fd, hsaved.goTo _, ?_⟩
    change CheckWorker.Knows _ _ _ (s.threadCheckFile tid) _
    rw [hexp.1]
    exact hpending.goTo _
  · exact Function.update_of_ne hne _ _

/-- **A round of the monitor**: every file is what was synced, and is to be checked. -/
lemma Inv.monitorRound (h : OnePage cfg) (hs : s.Inv cfg args ino c synced)
    (hfree : s.lockFree args = true) (timeUp : Bool) :
    (s.monitorRound cfg args timeUp).Inv cfg args ino synced synced := by
  refine ⟨hs.mounted.clear h, fun tid ht => ?_, hs.running⟩
  have hw := hs.worker tid ht
  have hunlocked : (s.workers tid).phase.holdsLock = false := by
    have := List.all_eq_true.mp hfree tid (List.mem_range.mpr ht)
    simpa using this
  refine ⟨hw.fd, hw.saved, ?_⟩
  have hcheck : (s.monitorRound cfg args timeUp).threadCheckFile tid = true := by
    simp [Lfscheck.monitorRound, ht]
  rw [hcheck]
  change CheckWorker.Expects _ _ _ _ (s.workers tid)
  rw [CheckWorker.Expects]
  cases hphase : (s.workers tid).phase with
  | head | waiting | finished => rfl
  | entered | reopened | compared | written | readBack =>
      simp [hphase, CheckPhase.holdsLock] at hunlocked

/-- **One step** of the checker: it runs, and no assertion fails. -/
theorem Inv.step (h : OnePage cfg) (hlru : cfg.applyLruEviction = false) (hfits : args.Fits cfg)
    (hupper : args.upperBoundWrite ≤ maxWriteOff) (hpos : 0 < args.upperBoundWrite)
    (hino : Set.InjOn ino (Set.Iio args.gNrThreads)) (hs : s.Inv cfg args ino c synced)
    {a : CheckAction} (hen : s.Enabled args a) (hfine : a.Fine) :
    ∃ s' c' synced', s.step cfg args a = some s' ∧ s'.Inv cfg args ino c' synced' := by
  rw [Lfscheck.step, if_neg (by rw [hs.running]; exact Bool.false_ne_true)]
  -- every action of a worker starts from what its phase expects of the file
  cases a with
  | head tid =>
      obtain ⟨ht, hphase⟩ := hen
      have hexp := (hs.worker tid ht).expects
      rw [CheckWorker.Expects, hphase] at hexp
      refine ⟨_, c, synced, rfl, hs.goTo ht ?_⟩
      split_ifs
      · exact CheckWorker.Knows.goTo hexp _
      · exact CheckWorker.Knows.goTo hexp _
  | enter tid =>
      obtain ⟨ht, hphase, -⟩ := hen
      have hexp := (hs.worker tid ht).expects
      rw [CheckWorker.Expects, hphase] at hexp
      have hcount : ({ s with
          threadOpCount := Function.update s.threadOpCount tid (s.threadOpCount tid + 1) } :
            Lfscheck).Inv cfg args ino c synced := ⟨hs.mounted, hs.worker, hs.running⟩
      exact ⟨_, c, synced, rfl, hcount.goTo ht (CheckWorker.Knows.goTo hexp _)⟩
  | reopen tid io fillIo =>
      obtain ⟨ht, hphase⟩ := hen
      have hexp := (hs.worker tid ht).expects
      rw [CheckWorker.Expects, hphase] at hexp
      rw [act]
      cases hcheck : s.threadCheckFile tid with
      | true =>
          rw [hcheck] at hexp
          obtain ⟨s', hstep, hs'⟩ := hs.reopenFile ht hexp io fillIo
          exact ⟨s', c, synced, by rw [if_pos rfl, hstep], hs'⟩
      | false =>
          rw [hcheck] at hexp
          refine ⟨_, c, synced, by rw [if_neg Bool.false_ne_true], hs.goTo ht ?_⟩
          exact ⟨hcheck, CheckWorker.Pending.goTo hexp _⟩
  | compare tid buf io =>
      obtain ⟨ht, hphase⟩ := hen
      have hexp := (hs.worker tid ht).expects
      rw [CheckWorker.Expects, hphase] at hexp
      obtain ⟨s', hstep, hs'⟩ := hs.compareFile h hupper hpos ht hexp buf hfine
      exact ⟨s', c, synced, hstep, hs'⟩
  | leave tid =>
      obtain ⟨ht, hphase, -⟩ := hen
      have hexp := (hs.worker tid ht).expects
      rw [CheckWorker.Expects, hphase] at hexp
      refine ⟨_, c, synced, rfl, hs.goTo ht ?_⟩
      change CheckWorker.Knows _ _ _ (s.threadCheckFile tid) _
      rw [hexp.1]
      exact hexp.2.goTo _
  | pwrite tid bt up ch io fillIo =>
      obtain ⟨ht, hphase, -, hlt, hup, hch, -⟩ := hen
      have hexp := (hs.worker tid ht).expects
      rw [CheckWorker.Expects, hphase] at hexp
      have hne : ch ≠ 0 := fun h0 => by
        rw [h0] at hch
        exact absurd hch (by decide)
      obtain ⟨s', c', hstep, hs'⟩ :=
        hs.writeRange h hlru hfits hupper hino ht hlt.le hup hne hexp hfine.1 hfine.2
      exact ⟨s', c', synced, hstep, hs'⟩
  | pread tid buf io =>
      obtain ⟨ht, hwritten⟩ := hen
      cases hphase : (s.workers tid).phase with
      | written bt up ch =>
          obtain ⟨s', hstep, hs'⟩ := hs.readRange h hupper ht hphase buf hfine
          exact ⟨s', c, synced, by rw [act, hphase]; exact hstep, hs'⟩
      | head | waiting | entered | reopened | compared | readBack | finished =>
          simp [hphase, CheckPhase.isWritten] at hwritten
  | fsync tid fs io =>
      obtain ⟨ht, hphase⟩ := hen
      have hexp := (hs.worker tid ht).expects
      rw [CheckWorker.Expects, hphase] at hexp
      cases fs with
      | true =>
          obtain ⟨s', synced', hstep, hs'⟩ := hs.syncFile h hino ht hexp hfine.1 hfine.2
          exact ⟨s', c, synced', hstep, hs'⟩
      | false =>
          refine ⟨_, c, synced, rfl, hs.goTo ht ?_⟩
          change CheckWorker.Knows _ _ _ (s.threadCheckFile tid) _
          rw [hexp.1]
          exact hexp.2.goTo _
  | clear timeUp => exact ⟨_, synced, synced, rfl, hs.monitorRound h hen.2 timeUp⟩
  | noFifo => exact ⟨_, c, synced, rfl, hs.mounted, hs.worker, hs.running⟩

/-- Nothing was written yet. -/
lemma inv_start (h : OnePage cfg) {d : Disk}
    (hd : ∀ i, (d.bytes i).length ≤ maxSize cfg.ioBlockSize)
    (hnames : ∀ tid < args.gNrThreads, d.ino (workerPath tid) = some (ino tid) ∧
      d.bytes (ino tid) = []) : (start ⟨.new cfg, d⟩ ino).Inv cfg args ino d.bytes d.bytes := by
  refine ⟨⟨CrashState.inv_start h hd, FS.shows_new h d fun i => .bare _ _,
    fun tid ht => (hnames tid ht).1, fun j b hb => absurd rfl hb⟩, fun tid ht => ?_, rfl⟩
  rw [(hnames tid ht).2]
  have hsaved : ((start ⟨.new cfg, d⟩ ino).workers tid).Saved args.upperBoundWrite [] :=
    ⟨rfl, Nat.zero_le _, fun _ => rfl, fun _ _ => rfl⟩
  exact ⟨rfl, hsaved, .inl ⟨rfl, rfl⟩, fun k hk => absurd rfl hk, rfl, fun k => rfl⟩

end Lfscheck

/-- **The checker raises no false alarm.** On a mount whose cache has a page for every block of the
files of the workers, every run of the workers and the monitor goes through, whatever the order of
their calls and of the clears, and no assertion fails. -/
theorem lfscheck_sound (h : OnePage cfg) (hlru : cfg.applyLruEviction = false)
    (hfits : args.Fits cfg) (hupper : args.upperBoundWrite ≤ maxWriteOff)
    (hpos : 0 < args.upperBoundWrite) {d : Disk}
    (hd : ∀ i, (d.bytes i).length ≤ maxSize cfg.ioBlockSize)
    (hino : Set.InjOn ino (Set.Iio args.gNrThreads))
    (hnames : ∀ tid < args.gNrThreads, d.ino (workerPath tid) = some (ino tid) ∧
      d.bytes (ino tid) = []) {actions : List CheckAction}
    (hrun : Runs.Guarded (Lfscheck.step cfg args) (fun s a => s.Enabled args a ∧ a.Fine)
      (.start ⟨.new cfg, d⟩ ino) actions) :
    ∃ s, Runs.run (Lfscheck.step cfg args) (.start ⟨.new cfg, d⟩ ino) actions = some s ∧
      s.aborted = false ∧ ∀ tid < args.gNrThreads,
        (s.workers tid).fileSize = (s.fs.disk.bytes (ino tid)).length ∧
        (s.workers tid).fileBuffer.read 0 (s.fs.disk.bytes (ino tid)).length
          = s.fs.disk.bytes (ino tid) := by
  obtain ⟨s, hs, c, synced, hinv⟩ := Runs.run_of_guarded
    (P := fun s => ∃ c synced, Lfscheck.Inv cfg args ino s c synced)
    (fun s a hs ha => by
      obtain ⟨c, synced, hinv⟩ := hs
      obtain ⟨s', c', synced', hstep, hinv'⟩ := hinv.step h hlru hfits hupper hpos hino ha.1 ha.2
      exact ⟨s', hstep, c', synced', hinv'⟩)
    ⟨d.bytes, d.bytes, Lfscheck.inv_start h hd hnames⟩ hrun
  refine ⟨s, hs, hinv.running, fun tid ht => ?_⟩
  have hdisk : s.fs.disk.bytes (ino tid) = synced (ino tid) := hinv.mounted.inv.disk (ino tid)
  rw [hdisk]
  exact ⟨(hinv.worker tid ht).saved.size, (hinv.worker tid ht).saved.read⟩

/-! ### One worker -/

/-- The empty file of a worker. -/
def checkedFile : Disk where
  entries := Map.single (workerPath 0) (.file 1)
  bytes := fun _ => []
  times := fun _ => ⟨default, default, default⟩
  sectors := fun _ => 0
  cwd := []

/-- A worker that writes the first eight bytes of its file. -/
def oneWorker : CheckArgs := ⟨1, 10, 8⟩

/-- A write that is not synced, between two clears, with the checks that follow them. -/
def checkedWrite : List CheckAction :=
  [.clear false, .head 0, .enter 0, .reopen 0 {} {}, .compare 0 abcd {}, .pwrite 0 2 7 65 {} {},
    .pread 0 abcd {}, .fsync 0 false {}, .clear false, .head 0, .enter 0, .reopen 0 {} {},
      .compare 0 abcd {}]

/-- The worker and the monitor on a cache of two pages. -/
theorem lfscheck_sound_oneWorker : ∃ s,
    Runs.run (Lfscheck.step (.tiny 2 false) oneWorker)
        (.start ⟨.new (.tiny 2 false), checkedFile⟩ fun _ => 1) checkedWrite = some s ∧
      s.aborted = false ∧ ∀ tid < oneWorker.gNrThreads,
        (s.workers tid).fileSize = (s.fs.disk.bytes 1).length ∧
        (s.workers tid).fileBuffer.read 0 (s.fs.disk.bytes 1).length = s.fs.disk.bytes 1 := by
  have hio : WriteIo.Ok {} := ⟨rfl, fun _ => rfl, fun _ => rfl⟩
  have hfits : oneWorker.Fits (.tiny 2 false) := show 1 * ((8 - 1) / 4 + 1) ≤ 2 by decide
  refine lfscheck_sound (Config.onePage_tiny 2 false) rfl hfits (by decide) (by decide)
    (fun _ => Nat.zero_le _) ?_ ?_ (Runs.Guarded.and (by decide +kernel) ?_)
  · intro a ha b hb _
    rw [Set.mem_Iio] at ha hb
    have : oneWorker.gNrThreads = 1 := rfl
    omega
  · intro tid ht
    obtain rfl : tid = 0 := Nat.lt_one_iff.mp ht
    exact ⟨by decide +kernel, rfl⟩
  · intro a ha
    simp only [checkedWrite, List.mem_cons, List.not_mem_nil, or_false] at ha
    rcases ha with rfl | rfl | rfl | rfl | rfl | rfl | rfl | rfl | rfl | rfl | rfl | rfl | rfl
    all_goals first
      | trivial | exact fun _ => rfl | exact ⟨hio, hio⟩ | exact ⟨⟨rfl, fun _ => rfl⟩, rfl⟩

/-- **With a page less the checker aborts**: the second block is written to the backing file at
once, and the file is longer than what was synced. -/
theorem lfscheck_aborts : ∃ s,
    Runs.run (Lfscheck.step (.tiny 1 false) oneWorker)
        (.start ⟨.new (.tiny 1 false), checkedFile⟩ fun _ => 1) checkedWrite = some s ∧
      s.aborted = true := by
  have hval : (Runs.run (Lfscheck.step (.tiny 1 false) oneWorker)
      (.start ⟨.new (.tiny 1 false), checkedFile⟩ fun _ => 1) checkedWrite).map Lfscheck.aborted
        = some true := by decide +kernel
  obtain ⟨s, hs, habort⟩ := Option.map_eq_some_iff.mp hval
  exact ⟨s, hs, habort⟩

end

end LazyFS
