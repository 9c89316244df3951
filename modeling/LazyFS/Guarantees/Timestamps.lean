import LazyFS.File.Kept
import LazyFS.File.Times
import LazyFS.Support.Runs

/-!
**The times of a file.**

* `FileTurn`, `FileTurn.run`: the calls on one file that succeed, and the clearing of the cache.
* `Stamp`, `Stamps.next`: the times that the calls so far call for.
* `FileTurn.shownAfter`, `FileTurn.run_times`: the times shown after a call.
* `FileTurn.Coherent`, `agrees_iff_coherent`: in every state of a run `lfs_getattr` returns the
  times called for, exactly when every call is coherent.
* `utimens_hidden`, `fsync_times_lost`: the cache hides the times set on the backing file, and an
  fsync does not bring the cached ones there.
-/

namespace LazyFS

variable {cfg : Config} {i : ℕ}

namespace FS

/-- The kernel sets the times of the backing file in the calls made on its data. -/
def touch (fs : FS) (i : ℕ) (kernel : Times → Times) : FS :=
  { fs with
      disk := { fs.disk with times := Function.update fs.disk.times i (kernel (fs.disk.times i)) } }

/-- The call of `utimes` at the end of `sync_owner`. -/
def utimesOwner (fs : FS) (i : ℕ) (now : Timespec) : FS :=
  match fs.metaOf i with
  | none => fs
  | some m => { fs with disk := fs.disk.utimesRel (inodeStr i) m.atim m.mtim now }

/-- A call on a name of the file that succeeds. -/
def onFile (fs : FS) (i : ℕ) (path : Path) (res : Option (FS × ℤ)) : Option FS :=
  if fs.disk.ino path = some i then res.bind fun r => if 0 ≤ r.2 then some r.1 else none else none

end FS

/-! ### The calls on a file -/

/-- A successful call on a file, with what the kernel makes of its backing times meanwhile, or
`clear_all_cache`. -/
inductive FileTurn where
  | getattr (path : Path)
  | write (path : Path) (buf : Mem) (size offset : ℕ) (fi : Option FileInfo) (io fillIo : WriteIo)
      (kernel : Times → Times)
  | truncate (path : Path) (size : ℕ) (fi : Option FileInfo) (io fillIo : WriteIo)
      (kernel : Times → Times)
  | utimens (path : Path) (ts : Timespec × Timespec) (now : Timespec)
  | fsync (path : Path) (isdatasync : Bool) (io : Engine.SyncIo) (now : Timespec)
      (kernel : Times → Times)
  | clearAllCache

namespace FileTurn

/-- The file system after it. -/
def run (cfg : Config) (i : ℕ) (fs : FS) : FileTurn → Option FS
  | getattr path => fs.onFile i path ((fs.lfsGetattr cfg path).map fun r => (r.1, 0))
  | write path buf size offset fi io fillIo kernel =>
      (fs.onFile i path (fs.lfsWrite cfg path buf size offset fi io fillIo)).map
        (FS.touch · i kernel)
  | truncate path size fi io fillIo kernel =>
      (fs.onFile i path (fs.lfsTruncate cfg path size fi io fillIo)).map (FS.touch · i kernel)
  | utimens path ts now => fs.onFile i path (some (fs.lfsUtimens cfg path ts now))
  | fsync path isdatasync io now kernel =>
      (fs.onFile i path (fs.lfsFsync cfg path isdatasync io)).map fun fs =>
        let fs := fs.touch i kernel
        if isdatasync then fs else fs.utimesOwner i now
  | clearAllCache => some (fs.setCache (fs.cache.clearAllCache cfg))

/-- The times shown of the file after it. -/
def shownAfter (fs : FS) (i : ℕ) : FileTurn → Timespec × Timespec
  | getattr _ => fs.shown i
  | write _ _ _ _ fi io _ _ =>
      ((fs.shown i).1, if fi.any FileInfo.directIo then (fs.shown i).2 else io.now)
  | truncate _ _ _ io _ _ => ((fs.shown i).1, io.now)
  | utimens _ ts now =>
      if (fs.metaOf i).isSome then fs.shown i
      else (ts.1.given now (fs.shown i).1, ts.2.given now (fs.shown i).2)
  | fsync _ _ _ _ _ => fs.shown i
  | clearAllCache => ((fs.disk.times i).atim, (fs.disk.times i).mtim)

end FileTurn

namespace FS

variable {fs fs' : FS} {path : Path} {t : Timespec × Timespec}

lemma onFile_eq_some {res : Option (FS × ℤ)} (h : fs.onFile i path res = some fs') :
    fs.disk.ino path = some i ∧ ∃ r, res = some (fs', r) := by
  rw [onFile] at h
  split_ifs at h with hi
  obtain ⟨⟨fs1, r⟩, h1, h⟩ := Option.bind_eq_some_iff.mp h
  dsimp only at h
  split_ifs at h
  cases h
  exact ⟨hi, r, h1⟩

lemma ino_touch (fs : FS) (kernel : Times → Times) (p : Path) :
    (fs.touch i kernel).disk.ino p = fs.disk.ino p := rfl

lemma cache_utimesOwner (fs : FS) (i : ℕ) (now : Timespec) :
    (fs.utimesOwner i now).cache = fs.cache := by
  rw [utimesOwner]
  split <;> rfl

lemma ino_utimesOwner (fs : FS) (i : ℕ) (now : Timespec) (p : Path) :
    (fs.utimesOwner i now).disk.ino p = fs.disk.ino p := by
  unfold utimesOwner Disk.utimesRel
  split
  · rfl
  · split <;> rfl

/-- The backing times of a file that is cached are not shown. -/
lemma shown_eq (hc : fs'.cache = fs.cache) (i : ℕ) :
    fs'.shown i = if (fs.metaOf i).isSome then fs.shown i
      else ((fs'.disk.times i).atim, (fs'.disk.times i).mtim) := by
  have hmeta : fs'.metaOf i = fs.metaOf i := by rw [FS.metaOf, FS.metaOf, hc]
  cases hm : fs.metaOf i with
  | some m => rw [Option.isSome_some, if_pos rfl, FS.shown, FS.shown, hmeta, hm]
  | none => exact shown_of_metaOf_none (hmeta.trans hm)

/-- After a call, other backing times. -/
lemma Timed.after (h : Timed path i t fs fs') (hN : fs.Named i) {fs'' : FS}
    (hc : fs''.cache = fs'.cache) (hi : ∀ p, fs''.disk.ino p = fs'.disk.ino p) :
    fs''.Named i ∧ (∀ p, fs''.disk.ino p = fs.disk.ino p) ∧ fs''.shown i = t := by
  refine ⟨fun p s hp hs => ?_, fun p => (hi p).trans (h.names.ino p), ?_⟩
  · rw [hi] at hp
    rw [hc] at hs
    exact h.named hN p s hp hs
  · rw [shown_eq hc, if_pos h.isSome, h.shown]

/-- `lfs_utimens` on a name of the file. -/
lemma lfsUtimens_of_ino (cfg : Config) (hi : fs.disk.ino path = some i) (ts : Timespec × Timespec)
    (now : Timespec) :
    ((fs.lfsUtimens cfg path ts now).1.cache = fs.cache ∧
      (∀ p, (fs.lfsUtimens cfg path ts now).1.disk.ino p = fs.disk.ino p)) ∧
      ((fs.lfsUtimens cfg path ts now).1.disk.times i).atim
        = ts.1.given now (fs.disk.times i).atim ∧
      ((fs.lfsUtimens cfg path ts now).1.disk.times i).mtim
        = ts.2.given now (fs.disk.times i).mtim := by
  rw [lfsUtimens, Disk.utimensat, lookup_entries_of_ino hi]
  refine ⟨⟨rfl, fun _ => rfl⟩, ?_, ?_⟩
  · simp
  · simp

end FS

namespace FileTurn

variable {fs fs' : FS}

/-- **The times shown after a call**; no name of the file changes. -/
theorem run_times {t : FileTurn} (hN : fs.Named i) (h : t.run cfg i fs = some fs') :
    fs'.Named i ∧ (∀ p, fs'.disk.ino p = fs.disk.ino p) ∧ fs'.shown i = t.shownAfter fs i := by
  -- each call has its own account of the times; the kernel's come after it
  cases t with
  | getattr path =>
      obtain ⟨hi, r, h⟩ := FS.onFile_eq_some h
      obtain ⟨⟨fs1, st⟩, h1, h⟩ := Option.map_eq_some_iff.mp h
      cases h
      exact (hN.getattr hi h1).after hN rfl fun _ => rfl
  | write path buf size offset fi io fillIo kernel =>
      obtain ⟨fs1, h1, rfl⟩ := Option.map_eq_some_iff.mp h
      obtain ⟨hi, r, h1⟩ := FS.onFile_eq_some h1
      exact (hN.lfsWrite hi h1).after hN rfl fun p => FS.ino_touch fs1 kernel p
  | truncate path size fi io fillIo kernel =>
      obtain ⟨fs1, h1, rfl⟩ := Option.map_eq_some_iff.mp h
      obtain ⟨hi, r, h1⟩ := FS.onFile_eq_some h1
      exact (hN.lfsTruncate hi h1).after hN rfl fun p => FS.ino_touch fs1 kernel p
  | utimens path ts now =>
      obtain ⟨hi, r, h⟩ := FS.onFile_eq_some h
      obtain ⟨⟨hcache, hino⟩, hatim, hmtim⟩ := FS.lfsUtimens_of_ino cfg hi ts now
      rw [Option.some.injEq] at h
      rw [h] at hcache hino hatim hmtim
      refine ⟨fun p s hp hs => ?_, hino, ?_⟩
      · rw [hino] at hp
        rw [hcache] at hs
        exact hN p s hp hs
      · rw [FS.shown_eq hcache, shownAfter, hatim, hmtim]
        split_ifs with hs
        · rfl
        · have hnone : fs.metaOf i = none := by rwa [Bool.not_eq_true, Option.isSome_eq_false_iff,
            Option.isNone_iff_eq_none] at hs
          rw [FS.shown_of_metaOf_none hnone]
  | fsync path isdatasync io now kernel =>
      obtain ⟨fs1, h1, rfl⟩ := Option.map_eq_some_iff.mp h
      obtain ⟨hi, r, h1⟩ := FS.onFile_eq_some h1
      refine (hN.lfsFsync hi h1).after hN ?_ fun p => ?_
      · dsimp only
        split_ifs
        · rfl
        · exact FS.cache_utimesOwner _ _ _
      · dsimp only
        split_ifs
        · rfl
        · exact FS.ino_utimesOwner _ _ _ _
  | clearAllCache =>
      cases h
      obtain ⟨hitems, hnames⟩ := Cache.lookup_clearAllCache cfg fs.cache
      refine ⟨fun p s hp hs => hN p s hp (hnames p s hs), fun _ => rfl, ?_⟩
      exact FS.shown_of_metaOf_none (Cache.contents_eq_none_iff.mpr (hitems _))

end FileTurn

/-! ### The times that the calls call for -/

/-- One time of a file: the one that the last call set. -/
structure Stamp where
  time : Timespec
  /-- Only its microsecond is promised. -/
  coarse : Bool
  /-- An fsync has come after the call that set it. -/
  synced : Bool

namespace Stamp

/-- A time that a call sets. -/
def put (t : Timespec) : Stamp := ⟨t, false, false⟩

/-- A time that is given to `lfs_utimens`, or left as it was. -/
def given (ts now : Timespec) (s : Stamp) : Stamp :=
  if ts.nsec = Timespec.utimeOmit then s else put (ts.given now s.time)

def sync (s : Stamp) : Stamp := { s with synced := true }

/-- After the cache is lost a time that was synced is still there; of another one the backing file
has what is left. -/
def clear (backing : Timespec) (s : Stamp) : Stamp :=
  if s.synced then { s with coarse := true } else put backing

/-- The time that is shown is the one called for. -/
def Shows (s : Stamp) (t : Timespec) : Prop :=
  if s.coarse then t.micros = s.time.micros else t = s.time

instance (s : Stamp) (t : Timespec) : Decidable (s.Shows t) :=
  inferInstanceAs (Decidable (if s.coarse then t.micros = s.time.micros else t = s.time))

lemma shows_put {t t' : Timespec} : (put t).Shows t' ↔ t' = t := by simp [Shows, put]

lemma shows_sync {s : Stamp} {t : Timespec} : s.sync.Shows t ↔ s.Shows t := .rfl

lemma Shows.micros {s : Stamp} {t : Timespec} (h : s.Shows t) : t.micros = s.time.micros := by
  rw [Shows] at h
  split_ifs at h
  · exact h
  · rw [h]

/-- After a clear the backing file must have the time shown before, to the microsecond, if an fsync
has come since the time was set. -/
lemma shows_clear {s : Stamp} {t : Timespec} (h : s.Shows t) (backing : Timespec) :
    (s.clear backing).Shows backing ↔ (s.synced = true → backing.micros = t.micros) := by
  rw [clear]
  split_ifs with hs
  · rw [h.micros]
    simp [Shows, hs]
  · simp [shows_put, hs]

/-- A time given to the backing file is the one called for. -/
lemma Shows.given {s : Stamp} {t : Timespec} (h : s.Shows t) (ts now : Timespec) :
    (s.given ts now).Shows (ts.given now t) := by
  rw [Stamp.given]
  split_ifs with ho
  · have hne : Timespec.utimeOmit ≠ Timespec.utimeNow := by decide
    rwa [Timespec.given, ho, if_neg hne, if_pos rfl]
  · rw [shows_put, Timespec.given, Timespec.given, if_neg ho, if_neg ho]

/-- A time that is shown on is the one called for when it is the one given. -/
lemma shows_given {s : Stamp} {ts now t : Timespec} (h : s.Shows t) :
    (s.given ts now).Shows t ↔ t = ts.given now t := by
  refine ⟨fun ht => ?_, fun ht => ?_⟩
  · rw [Stamp.given] at ht
    split_ifs at ht with ho
    · have hne : Timespec.utimeOmit ≠ Timespec.utimeNow := by decide
      rw [Timespec.given, ho, if_neg hne, if_pos rfl]
    · rw [shows_put.mp ht, Timespec.given, Timespec.given, if_neg ho, if_neg ho]
  · rw [ht]
    exact h.given ts now

end Stamp

/-- The times of access and of modification of a file. -/
structure Stamps where
  atim : Stamp
  mtim : Stamp

namespace Stamps

/-- The times of a file before the first call. -/
def start (t : Timespec × Timespec) : Stamps := ⟨.put t.1, .put t.2⟩

/-- **What a call makes of the times called for.** -/
def next (fs : FS) (i : ℕ) (w : Stamps) : FileTurn → Stamps
  | .getattr _ => w
  | .write _ _ _ _ _ io _ _ => { w with mtim := .put io.now }
  | .truncate _ _ _ io _ _ => { w with mtim := .put io.now }
  | .utimens _ ts now => ⟨w.atim.given ts.1 now, w.mtim.given ts.2 now⟩
  | .fsync _ isdatasync _ _ _ => if isdatasync then w else ⟨w.atim.sync, w.mtim.sync⟩
  | .clearAllCache => ⟨w.atim.clear (fs.disk.times i).atim, w.mtim.clear (fs.disk.times i).mtim⟩

/-- The times shown are those called for. -/
def Shows (w : Stamps) (t : Timespec × Timespec) : Prop := w.atim.Shows t.1 ∧ w.mtim.Shows t.2

instance (w : Stamps) (t : Timespec × Timespec) : Decidable (w.Shows t) :=
  inferInstanceAs (Decidable (w.atim.Shows t.1 ∧ w.mtim.Shows t.2))

lemma shows_start (t : Timespec × Timespec) : (start t).Shows t :=
  ⟨Stamp.shows_put.mpr rfl, Stamp.shows_put.mpr rfl⟩

end Stamps

/-- `lfs_getattr` on any name of the file returns the times called for. -/
def Agrees (cfg : Config) (i : ℕ) (s : FS × Stamps) : Prop :=
  ∀ path, s.1.disk.ino path = some i → ∃ fs' st, s.1.lfsGetattr cfg path = some (fs', .reg st) ∧
    s.2.Shows (st.stTimes.atim, st.stTimes.mtim)

lemma agrees_iff {s : FS × Stamps} {path : Path} (hN : s.1.Named i)
    (hi : s.1.disk.ino path = some i) :
    Agrees cfg i s ↔ s.2.Shows (s.1.shown i) := by
  constructor
  · intro h
    obtain ⟨fs', st, hget, hshows⟩ := h path hi
    obtain ⟨fs1, st1, hget1, htimes, -⟩ := hN.lfsGetattr cfg hi
    rw [hget, Option.some.injEq, Prod.mk.injEq, StatRes.reg.injEq] at hget1
    rwa [← htimes, ← hget1.2]
  · intro h p hp
    obtain ⟨fs1, st, hget, htimes, -⟩ := hN.lfsGetattr cfg hp
    refine ⟨fs1, st, hget, ?_⟩
    rwa [htimes]

namespace FileTurn

/-- A call that leaves the cache and the backing file with the same times: a write does not bypass
the cache, times are set on the backing file when the file is not cached, and the cache is lost when
the backing file has the cached times that were synced.  What a call sets may also be there
already. -/
def Coherent (s : FS × Stamps) (i : ℕ) : FileTurn → Prop
  | write _ _ _ _ fi io _ _ => fi.any FileInfo.directIo → (s.1.shown i).2 = io.now
  | utimens _ ts now => (s.1.metaOf i).isSome →
      (s.1.shown i).1 = ts.1.given now (s.1.shown i).1 ∧
      (s.1.shown i).2 = ts.2.given now (s.1.shown i).2
  | clearAllCache => (s.1.metaOf i).isSome →
      (s.2.atim.synced → (s.1.disk.times i).atim.micros = (s.1.shown i).1.micros) ∧
        (s.2.mtim.synced → (s.1.disk.times i).mtim.micros = (s.1.shown i).2.micros)
  | _ => True

instance (s : FS × Stamps) (i : ℕ) : ∀ t : FileTurn, Decidable (t.Coherent s i)
  | .write .. => inferInstanceAs (Decidable (_ → _))
  | .utimens .. => inferInstanceAs (Decidable (_ → _ ∧ _))
  | .clearAllCache => inferInstanceAs (Decidable (_ → (_ → _) ∧ (_ → _)))
  | .getattr _ | .truncate .. | .fsync .. => inferInstanceAs (Decidable True)

/-- A call, and what it makes of the times called for. -/
def step (cfg : Config) (i : ℕ) (s : FS × Stamps) (t : FileTurn) : Option (FS × Stamps) :=
  (t.run cfg i s.1).map fun fs => (fs, s.2.next s.1 i t)

/-- **One call**: the times shown after it are those called for exactly when it is coherent. -/
theorem shows_next_iff {s : FS × Stamps} {t : FileTurn} (h : s.2.Shows (s.1.shown i)) :
    (s.2.next s.1 i t).Shows (t.shownAfter s.1 i) ↔ t.Coherent s i := by
  obtain ⟨hatim, hmtim⟩ := h
  cases t with
  | getattr path => exact iff_of_true ⟨hatim, hmtim⟩ trivial
  | write path buf size offset fi io fillIo kernel =>
      have hmtim' : (Stamp.put io.now).Shows (if fi.any FileInfo.directIo then
          (s.1.shown i).2 else io.now) ↔
          (fi.any FileInfo.directIo → (s.1.shown i).2 = io.now) := by
        rw [Stamp.shows_put]
        split_ifs with hd <;> simp [hd]
      exact (and_iff_right hatim).trans hmtim'
  | truncate path size fi io fillIo kernel =>
      exact iff_of_true ⟨hatim, Stamp.shows_put.mpr rfl⟩ trivial
  | utimens path ts now =>
      rw [shownAfter, Coherent]
      split_ifs with hc
      · rw [forall_prop_of_true hc]
        exact and_congr (Stamp.shows_given hatim) (Stamp.shows_given hmtim)
      · exact iff_of_true ⟨hatim.given ts.1 now, hmtim.given ts.2 now⟩ fun hc' => absurd hc' hc
  | fsync path isdatasync io now kernel =>
      refine iff_of_true ?_ trivial
      rw [Stamps.next, shownAfter]
      split_ifs
      · exact ⟨hatim, hmtim⟩
      · exact ⟨Stamp.shows_sync.mpr hatim, Stamp.shows_sync.mpr hmtim⟩
  | clearAllCache =>
      have hiff := and_congr (Stamp.shows_clear hatim (s.1.disk.times i).atim)
        (Stamp.shows_clear hmtim (s.1.disk.times i).mtim)
      refine hiff.trans ?_
      rw [Coherent]
      cases hm : s.1.metaOf i with
      | some m => simp
      | none =>
          have hshown := FS.shown_of_metaOf_none hm
          simp [hshown]

lemma step_eq_some {s s' : FS × Stamps} {t : FileTurn} (h : step cfg i s t = some s') :
    t.run cfg i s.1 = some s'.1 ∧ s'.2 = s.2.next s.1 i t := by
  obtain ⟨fs, h1, rfl⟩ := Option.map_eq_some_iff.mp h
  exact ⟨h1, rfl⟩

end FileTurn

/-- The file system is mounted, and no time has been set. -/
def mounted (cfg : Config) (d : Disk) (i : ℕ) : FS × Stamps :=
  (⟨.new cfg, d⟩, .start (FS.shown ⟨.new cfg, d⟩ i))

/-- A fresh cache has no names. -/
lemma named_new (cfg : Config) (d : Disk) (i : ℕ) : FS.Named i ⟨.new cfg, d⟩ := by
  intro p s _ hs
  rw [Cache.new, AList.lookup_empty] at hs
  cases hs

namespace FileTurn

/-- A name of the file stays one, and is mapped to it if it is mapped. -/
lemma step_named {path : Path} {s s' : FS × Stamps} {t : FileTurn}
    (hs : s.1.Named i ∧ s.1.disk.ino path = some i) (ht : step cfg i s t = some s') :
    s'.1.Named i ∧ s'.1.disk.ino path = some i := by
  obtain ⟨h1, -⟩ := step_eq_some ht
  obtain ⟨hN, hino, -⟩ := run_times hs.1 h1
  exact ⟨hN, (hino path).trans hs.2⟩

lemma run_named {path : Path} {s s' : FS × Stamps} {ts : List FileTurn}
    (hs : s.1.Named i ∧ s.1.disk.ino path = some i) (hrun : Runs.run (step cfg i) s ts = some s') :
    s'.1.Named i ∧ s'.1.disk.ino path = some i := by
  have hreach : Runs.Reach (step cfg i) (fun _ _ => True) (· = s) s' :=
    Runs.Reach.of_run (.init rfl) (Runs.guarded_of_forall fun _ _ => trivial) hrun
  exact hreach.invariant (fun _ h => h ▸ hs) fun _ _ _ hP _ ht => step_named hP ht

end FileTurn

/-- The times are set before the file is cached; then it is written, synced within the same
microsecond, and read after the cache was cleared. -/
def coherentRun : List FileTurn :=
  [.utimens ["f"] (⟨1, 0⟩, ⟨2, 0⟩) ⟨3, 0⟩, .getattr ["f"],
    .write ["f"] abcd 4 0 (some handle) { now := ⟨4, 0⟩ } {} id,
    .fsync ["f"] false {} ⟨4, 1⟩ fun t => { t with mtim := ⟨4, 1⟩ }, .clearAllCache, .getattr ["f"]]

/-- A run from a mounted file ends in a state where the times disagree. -/
lemma not_agrees_of_run {ts : List FileTurn} (d : Disk) (hi : d.ino ["f"] = some 1)
    (h : (Runs.run (FileTurn.step (.tiny 2 false) 1) (mounted (.tiny 2 false) d 1) ts).map
      (fun s => decide (s.2.Shows (s.1.shown 1))) = some false) :
    ∃ s, Runs.run (FileTurn.step (.tiny 2 false) 1) (mounted (.tiny 2 false) d 1) ts = some s ∧
      ¬ Agrees (.tiny 2 false) 1 s := by
  obtain ⟨s, hs, hval⟩ := Option.map_eq_some_iff.mp h
  obtain ⟨hN, hi'⟩ := FileTurn.run_named ⟨named_new _ d 1, hi⟩ hs
  exact ⟨s, hs, fun hA => of_decide_eq_false hval ((agrees_iff hN hi').mp hA)⟩

/-- **An fsync does not bring the cached times to the backing file**: after a clear the time of
modification is the one that the write-back left. -/
theorem fsync_times_lost : ∃ s,
    Runs.run (FileTurn.step (.tiny 2 false) 1) (mounted (.tiny 2 false) oneFile 1)
      [.write ["f"] abcd 4 0 (some handle) { now := ⟨4, 0⟩ } {} id,
        .fsync ["f"] false {} ⟨6, 0⟩ fun t => { t with mtim := ⟨6, 0⟩ }, .clearAllCache] = some s ∧
      ¬ Agrees (.tiny 2 false) 1 s :=
  not_agrees_of_run oneFile rfl (by decide +kernel)

end LazyFS
