import LazyFS.Guarantees.CrashConsistency
import LazyFS.Model.Worker

/-!
**A checkpoint** through the FIFO writes back every file, whatever the pool.

* `FS.Tracked`: a cached file has a mapped path, and a file that is not cached is in its backing
  file.
* `FS.Settled`: a file is in its backing file, no block of it is dirty and its item is marked
  synced.
* `FS.Shows.syncOwner_kept`: the write-back of a mapped path settles its file and no other.
* `FS.settled_fullCheckpoint`: the whole checkpoint settles every file.
* `checkpoint_durable`: after the command nothing is reported as unsynced, and a power failure loses
  nothing.
-/

namespace LazyFS

open Engine Program

variable {cfg : Config}

namespace FS

variable {fs fs' : FS} {path : Path} {i n : ℕ} {c c' : ℕ → List UInt8}

/-! ### Cached files have mapped paths -/

/-- Every cached file has a mapped path, and a file that is not cached has its contents in the
backing file. -/
structure Tracked (cfg : Config) (fs : FS) (c : ℕ → List UInt8) : Prop where
  mapped : ∀ i, (fs.metaOf i).isSome → ∃ p, fs.cache.fileInodeMapping.lookup p = some (inodeStr i)
  bare : ∀ i, fs.metaOf i = none → fs.file cfg i = .bare (c i)

/-- A call on a path. -/
lemma Tracked.touched (h : Tracked cfg fs c) (hS : fs.Sound cfg) (hi : fs.disk.ino path = some i)
    (ht : Touched cfg path i n fs fs') (hc : ∀ j, j ≠ i → c' j = c j) : Tracked cfg fs' c' := by
  refine ⟨fun j hj => ?_, fun j hj => ?_⟩
  · by_cases hji : j = i
    · exact ⟨path, by rw [ht.mapping, if_pos rfl, hji]⟩
    · rw [ht.metaOf j hji] at hj
      obtain ⟨p, hp⟩ := h.mapped j hj
      refine ⟨p, ?_⟩
      rw [ht.mapping, if_neg, hp]
      rintro rfl
      obtain ⟨k, hk, hks⟩ := hS.named p _ hp
      rw [hi, Option.some.injEq] at hk
      exact hji ((inodeStr_injective hks).trans hk.symm)
  · have hji : j ≠ i := by
      rintro rfl
      obtain ⟨m, hm, -⟩ := ht.exists_meta
      rw [hm] at hj
      cases hj
    rw [ht.file j hji, hc j hji]
    exact h.bare j (by rw [← ht.metaOf j hji]; exact hj)

/-- A fresh file system. -/
lemma tracked_new (cfg : Config) (d : Disk) : Tracked cfg ⟨.new cfg, d⟩ d.bytes :=
  ⟨fun _ h => (by cases h), fun _ _ => rfl⟩

end FS

/-- **One call** keeps track of the files. -/
lemma FS.Tracked.run (h : OnePage cfg) {fs fs' : FS} {c : ℕ → List UInt8} (hk : FS.Keeps cfg fs c)
    (ht : fs.Tracked cfg c) {op : FileOp} (hop : op.Proper cfg fs)
    (hroom : cfg.applyLruEviction = true → op.Roomy cfg fs) {res : FileRes}
    (hrun : op.run cfg fs = some (fs', res)) :
    fs'.Tracked cfg (op.logical fs.disk fs.disk.bytes c) := by
  have hB := h.pos
  -- a call touches only the file of its path, which is mapped
  cases op with
  | getattr path =>
      obtain ⟨i, hi⟩ := hop
      obtain ⟨fs1, st, hget, -, hopen, -⟩ := hk.getattr hi
      rw [FileOp.run, hget, Option.map_some, Option.some.injEq, Prod.mk.injEq] at hrun
      rw [← hrun.1]
      exact ht.touched hk.sound hi hopen.touched fun _ _ => rfl
  | read path buf size offset fi io =>
      obtain ⟨i, hi, hsize, hw, hfi, hio⟩ := hop
      obtain ⟨fs1, r, buf', hread, -, -, htouch, -, -⟩ := hk.read hB hi (hk.file i).holds
        (hk.file i).bounded buf hsize (hw.trans (by norm_num)) hfi hio
      rw [FileOp.run, hread, Option.map_some, Option.some.injEq, Prod.mk.injEq] at hrun
      rw [← hrun.1]
      exact ht.touched hk.sound hi htouch fun _ _ => rfl
  | write path buf size offset fi io fillIo =>
      obtain ⟨i, hi, hsize, hlen, hfi, hio, hfillIo⟩ := hop
      obtain ⟨fs1, hwrite, htouch, -⟩ := hk.sound.lfsWrite h hi buf hsize
        (hlen.trans ((maxSize_le_offT _).trans (by norm_num))) hfi hio hfillIo
        (FS.enoughIfLru_of_roomy fun hlru => hroom hlru i hi)
      rw [FileOp.run, hwrite, Option.map_some, Option.some.injEq, Prod.mk.injEq] at hrun
      rw [← hrun.1, FileOp.logical, hi]
      exact ht.touched hk.sound hi htouch fun j hj => Function.update_of_ne hj _ _
  | truncate path n fi io fillIo =>
      obtain ⟨i, hi, hgrow, hlen, hfi, hio, hfillIo⟩ := hop
      obtain ⟨fs1, r, htrunc, htouch, -⟩ := hk.sound.lfsTruncate h hi
        (hlen.trans ((maxSize_le_offT _).trans (by norm_num))) hgrow hfi hio hfillIo
        fun hlt => FS.enoughIfLru_of_roomy fun hlru => hroom hlru i hi hlt
      rw [FileOp.run, htrunc, Option.map_some, Option.some.injEq, Prod.mk.injEq] at hrun
      rw [← hrun.1, FileOp.logical, hi]
      exact ht.touched hk.sound hi htouch fun j hj => Function.update_of_ne hj _ _
  | fsync path isdatasync io =>
      obtain ⟨i, hi, hio⟩ := hop
      obtain ⟨fs1, hsync, -, htouch, -, -⟩ := hk.fsync_kept hi isdatasync hio
      rw [FileOp.run, hsync, Option.map_some, Option.some.injEq, Prod.mk.injEq] at hrun
      rw [← hrun.1]
      exact ht.touched hk.sound hi htouch fun _ _ => rfl
  | clear =>
      obtain ⟨-, -, hmeta, hfile, -⟩ := hk.sound.clearAllCache h
      obtain ⟨rfl, -⟩ := Prod.mk.inj (Option.some.inj hrun)
      refine ⟨fun i hi => ?_, fun i _ => hfile i⟩
      rw [hmeta i] at hi
      cases hi

/-- Every state reached keeps track of its files. -/
lemma FS.tracked_of_reached (h : OnePage cfg) (hlru : cfg.applyLruEviction = false)
    {s : FS × (ℕ → List UInt8)} (hs : FS.Reached cfg s) : FS.Keeps cfg s.1 s.2 ∧
    s.1.Tracked cfg s.2 := by
  refine hs.invariant (P := fun s => FS.Keeps cfg s.1 s.2 ∧ s.1.Tracked cfg s.2) ?_ ?_
  · rintro _ ⟨d, hd, rfl⟩
    exact ⟨FS.shows_new h d fun i => .bare (hd i), FS.tracked_new cfg d⟩
  · rintro s op s' ⟨hk, ht⟩ hop hstep
    obtain ⟨fs', res, hrun, -, hk', -⟩ := hk.run h op hop (FS.roomy_of_off hlru op)
    have ht' := ht.run h hk hop (FS.roomy_of_off hlru op) hrun
    rw [FileOp.step, hrun, Option.map_some, Option.some.injEq] at hstep
    rw [← hstep]
    exact ⟨hk', ht'⟩

/-! ### One write-back -/

/-- The items after `sync_owner`. -/
lemma Cache.lookup_syncOwner {c c' : Cache} {d d' : Disk} {owner : String}
    {only : Bool} {path : Path} {io : SyncIo} {r : ℤ} {it : Item}
    (hit : c.contents.lookup owner = some it)
    (h : c.syncOwner cfg d owner only path io = some (c', d', r)) (o : String) :
    c'.contents.lookup o = if o = owner then some (it.setDataSyncFlag true)
      else c.contents.lookup o := by
  rw [Cache.syncOwner, hit] at h
  obtain ⟨r', -, hr'⟩ := Option.bind_eq_some_iff.mp h
  rw [Option.some.injEq, Prod.mk.injEq] at hr'
  rw [← hr'.1]
  exact Cache.lookup_setItem c owner o (it.setDataSyncFlag true)

namespace FS

variable {fs fs' : FS} {path : Path} {i : ℕ} {c : ℕ → List UInt8}

/-- The file is in its backing file, no block of it is dirty and its item is marked synced. -/
structure Settled (cfg : Config) (fs : FS) (c : ℕ → List UInt8) (i : ℕ) : Prop where
  bytes : fs.disk.bytes i = c i
  clean : ∀ b v, (fs.file cfg i).blocks b = some v → v.dirty = false
  flag : ∀ it, fs.cache.contents.lookup (inodeStr i) = some it → it.dataSynced = true

/-- A file that is not cached is settled. -/
lemma Tracked.settled (h : Tracked cfg fs c) (hi : fs.metaOf i = none) : fs.Settled cfg c i := by
  have hbare := h.bare i hi
  refine ⟨congrArg FileView.disk hbare, fun b v hv => ?_, fun it hit => ?_⟩
  · rw [hbare] at hv
    cases hv
  · rw [FS.metaOf, Cache.getContentMetadata, hit] at hi
    cases hi

/-- **The write-back of a mapped path** settles its file, and no other file changes. -/
theorem Shows.syncOwner_kept (hk : Keeps cfg fs c) (hi : fs.disk.ino path = some i) {m : Metadata}
    (hm : fs.metaOf i = some m) (only : Bool) {io : SyncIo} (hio : io.Ok)
    (hcut : io.ftruncateOk = true) :
    ∃ fs', fs.cache.syncOwner cfg fs.disk (inodeStr i) only path io
      = some (fs'.cache, fs'.disk, 0) ∧
      Changed cfg i fs fs' ∧ Keeps cfg fs' c ∧ fs'.Settled cfg c i ∧
      ∀ j, j ≠ i → fs.Settled cfg c j → fs'.Settled cfg c j := by
  obtain ⟨fs', disk1, hsync, hch, -, hF, hD, hfile⟩ :=
    hk.sound.syncOwner hi hm (hk.file i).bounded only io
  have hsize : m.size = (c i).length := by
    rw [← hk.size, FS.sizeOf, hm]
    rfl
  rw [hsize, (hk.file i).synced ⟨fun _ _ _ _ => hio, .inl ⟨hio.openOk, hcut⟩⟩ hF hD] at hfile
  obtain ⟨it, hit, -⟩ := Option.map_eq_some_iff.mp hm
  have hitems := Cache.lookup_syncOwner hit hsync
  -- the file is cleaned, and all files show what they did
  have hfiles : ∀ j, FileView.Kept cfg.ioBlockSize (c j) (fs'.file cfg j) := by
    intro j
    by_cases hj : j = i
    · rw [hj, hfile]
      exact (hk.file i).cleaned
    · rw [hch.file j hj]
      exact hk.file j
  have hsizes : ∀ j, fs'.sizeOf j = (c j).length := by
    intro j
    by_cases hj : j = i
    · rw [hj, FS.sizeOf, hch.metaOf, hm]
      exact hsize
    · rw [← hk.size, FS.sizeOf, FS.sizeOf, hch.metaOf,
        show fs'.disk.bytes j = fs.disk.bytes j from congrArg FileView.disk (hch.file j hj)]
  refine ⟨fs', hsync, hch, ⟨hch.sound, hsizes, hfiles⟩, ⟨?_, fun b v hv => ?_, fun it' hit' => ?_⟩,
    fun j hj hset => ⟨?_, fun b v hv => ?_, fun it' hit' => ?_⟩⟩
  · -- this file is settled
    exact congrArg FileView.disk hfile
  · rw [hfile] at hv
    obtain ⟨v', -, rfl⟩ := Option.map_eq_some_iff.mp hv
    rfl
  · rw [hitems, if_pos rfl, Option.some.injEq] at hit'
    rw [← hit']
    rfl
  · -- the others stay so
    exact (congrArg FileView.disk (hch.file j hj)).trans hset.bytes
  · rw [hch.file j hj] at hv
    exact hset.clean b v hv
  · rw [hitems, if_neg fun h => hj (inodeStr_injective h)] at hit'
    exact hset.flag it' hit'

/-- The write-backs of a list of mapped paths settle their files, and those that were settled stay
so. -/
lemma settled_foldlM {io : Path → SyncIo} (hio : ∀ p, (io p).Ok ∧ (io p).ftruncateOk = true)
    {l : List (Path × String)} (hk : Keeps cfg fs c)
    (hl : ∀ it ∈ l, ∃ i, fs.disk.ino it.1 = some i ∧ it.2 = inodeStr i)
    (hset : ∀ i, (fs.metaOf i).isSome ∧ (∃ p, (p, inodeStr i) ∈ l) ∨ fs.Settled cfg c i) :
    ∃ fs', l.foldlM (fun (s : Cache × Disk) it =>
        (s.1.syncOwner cfg s.2 it.2 false it.1 (io it.1)).map fun r => (r.1, r.2.1))
        (fs.cache, fs.disk)
        = some (fs'.cache, fs'.disk) ∧
      Disk.SameNames fs.disk fs'.disk ∧ Keeps cfg fs' c ∧ (∀ i, fs'.metaOf i = fs.metaOf i) ∧
      ∀ i, fs'.Settled cfg c i := by
  induction l generalizing fs with
  | nil =>
      refine ⟨fs, rfl, .refl _, hk, fun _ => rfl, fun i => (hset i).resolve_left ?_⟩
      rintro ⟨-, p, hp⟩
      cases hp
  | cons it l ih =>
      obtain ⟨p, s⟩ := it
      obtain ⟨k, hpk, rfl⟩ := hl _ List.mem_cons_self
      rw [List.foldlM_cons]
      dsimp only
      -- the other files are still to come, under the names left
      have hrest : ∀ i, i ≠ k → (∃ q, (q, inodeStr i) ∈ (p, inodeStr k) :: l) →
          ∃ q, (q, inodeStr i) ∈ l := by
        rintro i hik ⟨q, hq⟩
        rcases List.mem_cons.mp hq with heq | hq
        · exact absurd (inodeStr_injective (Prod.mk.inj heq).2) hik
        · exact ⟨q, hq⟩
      cases hm : fs.metaOf k with
      -- a file that is not cached is skipped
      | none =>
          have hnone : fs.cache.syncOwner cfg fs.disk (inodeStr k) false p (io p)
              = some (fs.cache, fs.disk, -1) := by
            rw [Cache.syncOwner, Cache.contents_eq_none_iff.mp hm]
          rw [hnone]
          refine ih hk (fun it hit => hl it (List.mem_cons_of_mem _ hit)) fun i => ?_
          rcases hset i with ⟨hi, hq⟩ | hs
          · refine .inl ⟨hi, hrest i ?_ hq⟩
            rintro rfl
            rw [hm] at hi
            cases hi
          · exact .inr hs
      -- the file is settled, and stays so when the others follow
      | some m =>
          obtain ⟨fs1, hsync, hch, hk1, hset1, hstay⟩ :=
            hk.syncOwner_kept hpk hm false (hio p).1 (hio p).2
          rw [hsync]
          obtain ⟨fs', hfold, hnames, hk', hmeta, hall⟩ := ih hk1
            (fun it hit => by
              obtain ⟨i, hi, hs⟩ := hl it (List.mem_cons_of_mem _ hit)
              exact ⟨i, (hch.names.ino it.1).trans hi, hs⟩)
            (fun i => by
              by_cases hik : i = k
              · exact .inr (hik ▸ hset1)
              · rcases hset i with ⟨hi, hq⟩ | hs
                · exact .inl ⟨by rw [hch.metaOf]; exact hi, hrest i hik hq⟩
                · exact .inr (hstay i hik hs))
          exact ⟨fs', hfold, hch.names.trans hnames, hk',
            fun i => (hmeta i).trans (hch.metaOf i), hall⟩

/-- **`full_checkpoint`** settles every file. -/
theorem settled_fullCheckpoint {io : Path → SyncIo}
    (hio : ∀ p, (io p).Ok ∧ (io p).ftruncateOk = true) (hk : Keeps cfg fs c)
    (ht : Tracked cfg fs c) :
    ∃ fs', fs.cache.fullCheckpoint cfg fs.disk io = some (fs'.cache, fs'.disk) ∧
      Disk.SameNames fs.disk fs'.disk ∧ Keeps cfg fs' c ∧ (∀ i, fs'.metaOf i = fs.metaOf i) ∧
      ∀ i, fs'.Settled cfg c i := by
  refine settled_foldlM hio hk (fun it hit => ?_) fun i => ?_
  · exact hk.sound.named it.1 it.2 (Map.mem_toList.mp ((cfg.unordered_perm _).mem_iff.mp hit))
  · cases hm : fs.metaOf i with
    | none => exact .inr (ht.settled hm)
    | some m =>
        obtain ⟨p, hp⟩ := ht.mapped i (by rw [hm]; rfl)
        exact .inl ⟨rfl, p, (cfg.unordered_perm _).mem_iff.mpr (Map.mem_toList.mpr hp)⟩

/-- Nothing is reported when every file is settled. -/
lemma reportUnsyncedData_eq_nil (hS : fs.Sound cfg) (h : ∀ i, fs.Settled cfg c i) :
    fs.cache.reportUnsyncedData cfg = some [] := by
  have hloop : ∀ l : List (String × Item), (∀ it ∈ l, it.2.dataSynced = true) →
      Cache.reportLoop fs.cache.engine l = some [] := by
    intro l hl
    induction l with
    | nil => rfl
    | cons it l ih =>
        obtain ⟨cid, it⟩ := it
        rw [Cache.reportLoop, if_pos (hl _ List.mem_cons_self)]
        exact ih fun it hit => hl it (List.mem_cons_of_mem _ hit)
  refine hloop _ fun it hit => ?_
  have hlook := Map.mem_toList.mp ((cfg.unordered_perm _).mem_iff.mp hit)
  obtain ⟨i, hi⟩ := hS.keys it.1 (by
    rw [Cache.getContentMetadata, hlook]
    exact Option.some_ne_none _)
  rw [hi] at hlook
  exact (h i).flag it.2 hlook

end FS

/-! ### The command -/

/-- The worker on the command. -/
lemma Lfs.fhtWorkerCommand_checkpoint (io : Path → SyncIo) :
    fhtWorkerCommand cfg io (bufferString "lazyfs::cache-checkpoint\n".toList) = (do
      commandCheckpoint cfg io
      pure []) := by
  have hcommand : bufferString "lazyfs::cache-checkpoint\n".toList
      = "lazyfs::cache-checkpoint".toList := by
    decide
  rw [hcommand, fhtWorkerCommand, if_neg (by decide), if_neg (by decide), if_neg (by decide),
    if_neg (by decide), if_pos rfl]

/-- **A checkpoint is durable.** In every state reached, whatever the pool holds, the command
`lazyfs::cache-checkpoint` leaves every file in its backing file: nothing is reported as unsynced,
the files are kept, and a new mount shows them as they are. -/
theorem checkpoint_durable (h : OnePage cfg) (hlru : cfg.applyLruEviction = false) {s : Lfs}
    {c : ℕ → List UInt8} (hs : FS.Reached cfg (s.fs, c)) {io : Path → SyncIo}
    (hio : ∀ p, (io p).Ok ∧ (io p).ftruncateOk = true) :
    wp (Lfs.fhtWorker cfg io ["lazyfs::cache-checkpoint\n".toList])
      (fun _ s' => s'.fs.cache.reportUnsyncedData cfg = some [] ∧ FS.Keeps cfg s'.fs c ∧
        ∀ path i, s.fs.disk.ino path = some i → s'.fs.disk.bytes i = c i ∧
          FS.Displays cfg ⟨.new cfg, s'.fs.disk⟩ path i (c i))
      (fun _ _ => False) s := by
  obtain ⟨hk, ht⟩ := FS.tracked_of_reached h hlru hs
  obtain ⟨fs', hcheck, hnames, hk', -, hset⟩ := FS.settled_fullCheckpoint hio hk ht
  rw [Lfs.fhtWorker, List.map_cons, List.map_nil, all, all, wp_bind,
    Lfs.fhtWorkerCommand_checkpoint,
    wp_bind, Lfs.commandCheckpoint, Lfs.liftFs, wp_ofOption, hcheck, Option.map_some]
  refine ⟨fun fs1 a heq => ?_, fun hn => by cases hn⟩
  obtain ⟨rfl, -⟩ := Prod.mk.inj (Option.some.inj heq)
  refine ⟨FS.reportUnsyncedData_eq_nil hk'.sound hset, hk', fun path i hi => ⟨(hset i).bytes, ?_⟩⟩
  have hbytes : fs'.disk.bytes = c := funext fun j => (hset j).bytes
  have hshown := FS.Shows.displays (FS.shows_new (P := FileView.Kept cfg.ioBlockSize)
      h fs'.disk fun j =>
    .bare ((hk'.file j).disk_le)) h.pos ((hnames.ino path).trans hi) FileView.clamped_bare
  rw [hbytes] at hshown
  exact hshown

/-- A block is written, and the command follows. -/
theorem checkpoint_durable_written : ∃ s, written = some s ∧
    wp (Lfs.fhtWorker (.tiny 2 false) (fun _ => {}) ["lazyfs::cache-checkpoint\n".toList])
      (fun _ s' => s'.fs.cache.reportUnsyncedData (.tiny 2 false) = some [] ∧
        FS.Keeps (.tiny 2 false) s'.fs s.2 ∧
        ∀ path i, s.1.disk.ino path = some i → s'.fs.disk.bytes i = s.2 i ∧
          FS.Displays (.tiny 2 false) ⟨.new (.tiny 2 false), s'.fs.disk⟩ path i (s.2 i))
      (fun _ _ => False) (Lfs.new s.1 ∅) := by
  obtain ⟨s, hs⟩ := Option.isSome_iff_exists.mp (show written.isSome = true by decide +kernel)
  refine ⟨s, hs, checkpoint_durable (Config.onePage_tiny 2 false) rfl ?_ fun _ =>
    ⟨⟨rfl, fun _ => rfl⟩, rfl⟩⟩
  exact reached_written hs

end LazyFS
