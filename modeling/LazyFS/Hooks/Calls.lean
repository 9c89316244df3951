import LazyFS.Hooks.Marks

/-!
The marks of every call.

* `Call.head`: the hook at the start of a call, before it takes the lock; `Call.lockedMarks`: its
  marks under the lock, from the file system it finds there.
* `Call.run_spec`: every call runs its first hook and then its marks, or stops at one of them.
-/

namespace LazyFS

open Program Mark

namespace FS

variable (cfg : Config)

/-- The marks of a write with a null handle. -/
def nullWriteMarks (fs : FS) (path : Path) : List Mark :=
  .hook ⟨"write", "before", path.str, ""⟩ ::
    ([] ++ if (fs.disk.openWrite path).isSome then ends "write" path.str "" "after" else [])

/-- The marks of a write that fills the hole before the offset. -/
def holeMarks (fs : FS) (path : Path) (offset : ℕ) (fi : FileInfo) : List Mark :=
  match fs.writeStart cfg path with
  | none => []
  | some (fs, _, fileSizeBefore) =>
      if fi.directIo then [] else if fileSizeBefore < offset then fs.nullWriteMarks path else []

/-- The marks of a write inside another operation. -/
def writeMarks (fs : FS) (path : Path) (offset : ℕ) : Option FileInfo → List Mark
  | none => fs.nullWriteMarks path
  | some fi =>
      .hook ⟨"write", "before", path.str, ""⟩ ::
        (fs.holeMarks cfg path offset fi ++ if true then ends "write" path.str "" "after" else [])

/-- The item that `lfs_truncate` works on. -/
def truncateTarget (fs : FS) (path : Path) (fi : Option FileInfo) : Option (FS × Option String) :=
  (fs.lfsGetattr cfg path).bind fun r => r.1.truncateInode cfg path fi

/-- The marks of a truncation that grows the file. -/
def growMarks (fs : FS) (path : Path) (size : ℕ) (fi : Option FileInfo) : List Mark :=
  match fs.truncateTarget cfg path fi with
  | some (fs, some inode) =>
      let previousSize := ((fs.cache.getContentMetadata inode).map Metadata.size).getD 0
      if previousSize < size then fs.writeMarks cfg path previousSize fi else []
  | _ => []

/-- The truncation reaches its end. -/
def truncateEnds (fs : FS) (path : Path) (fi : Option FileInfo) : Bool :=
  match fs.truncateTarget cfg path fi with
  | some (_, some _) => decide (cfg.uninitInt ≠ -1)
  | _ => false

/-- The marks of a truncation under the lock. -/
def truncateMarks (fs : FS) (path : Path) (size : ℕ) (fi : Option FileInfo) : List Mark :=
  fs.growMarks cfg path size fi ++
    if fs.truncateEnds cfg path fi then ends "truncate" path.str "" "after" else []

/-- The marks of the truncation that `lfs_open` makes. -/
def openMarks (fs : FS) (path : Path) (flags : Disk.OpenFlags) : List Mark :=
  match fs.openFile path flags, fs.lfsGetattr cfg path with
  | some fd, some r =>
      if flags.trunc then
        .hook ⟨"truncate", "before", path.str, ""⟩ ::
          r.1.truncateMarks cfg path 0 (some ⟨fd, false⟩)
      else []
  | _, _ => []

end FS

namespace Call

/-- The name of an operation, and its paths as the hooks get them; `lfs_getattr` has no hooks. -/
def names : Call → Option (String × String × String)
  | getattr _ => none
  | create path _ _ _ => some ("create", path.str, "")
  | .open path _ _ => some ("open", path.str, "")
  | read path _ _ _ _ _ => some ("read", path.str, "")
  | write path _ _ _ _ _ => some ("write", path.str, "")
  | truncate path _ _ _ => some ("truncate", path.str, "")
  | fsync path _ _ => some ("fsync", path.str, "")
  | access path _ => some ("access", path.str, "")
  | rename _ source dest => some ("rename", source.str, dest.str)
  | link source dest => some ("link", source.str, dest.str)
  | symlink target dest _ => some ("symlink", target, dest.str)
  | unlink path => some ("unlink", path.str, "")

/-- The hook at the start of a call, outside the lock. -/
def head (c : Call) : Option Hook := c.names.map fun n => ⟨n.1, "before", n.2.1, n.2.2⟩

variable (cfg : Config)

/-- The marks of the operations that a call makes inside its own. -/
def nestedMarks (fs : FS) : Call → List Mark
  | .open path flags _ => fs.openMarks cfg path flags
  | write path _ _ offset fi _ => fs.holeMarks cfg path offset fi
  | truncate path size fi _ => fs.growMarks cfg path size fi
  | _ => []

/-- The call reaches its end. -/
def reachesEnd (fs : FS) : Call → Bool
  | getattr _ => false
  | create path flags newIno now =>
      ((fs.lfsCreate cfg path flags newIno now).map fun r => r.2.2.isSome).getD false
  | .open path flags _ => (fs.openFile path flags).isSome
  | read path _ _ offset fi io => !fs.readReturnsEarly cfg path offset fi io.now
  | write _ _ _ _ _ _ => true
  | truncate path _ fi _ => fs.truncateEnds cfg path fi
  | fsync _ _ _ => true
  | access path allowed => allowed && (fs.disk.entries.lookup path).isSome
  | rename _ source dest => (fs.disk.rename source dest).isSome
  | link source dest => (fs.disk.link source dest).isSome
  | symlink _ dest newIno => (fs.disk.symlink dest newIno).isSome
  | unlink path => (fs.disk.unlink path).isSome

/-- The timing that the hook at the end of a call is called with. -/
def endTiming : Call → String
  | unlink _ => "before"
  | _ => "after"

/-- The marks at the end of a call. -/
def endMarks (c : Call) : List Mark :=
  match c.names with
  | none => []
  | some n => ends n.1 n.2.1 n.2.2 c.endTiming

/-- The marks of a call under the lock. -/
def lockedMarks (fs : FS) (c : Call) : List Mark :=
  c.nestedMarks cfg fs ++ if c.reachesEnd cfg fs then c.endMarks else []

end Call

/-! ### Operations inside others -/

variable {cfg : Config} {rgx : Rgx} {s s' : Lfs}

/-- An operation with hooks whose body has the marks `marks` and reaches its end if `reachesEnd`
says so, both from the file system under the lock. -/
def HasMarks (cfg : Config) (rgx : Rgx) (opname fromPath toPath afterTiming : String)
    (marks : FS → List Mark) (reachesEnd : FS → Bool) (m : FaultM ℤ) : Prop :=
  ∃ body, m = Lfs.hooked cfg rgx opname fromPath toPath afterTiming body ∧
    ∀ s : Lfs, 0 < s.sharedHolds → Marked (marks s.fs) body (fun r _ => r.2 = reachesEnd s.fs) s

/-- The operation inside another one. -/
lemma HasMarks.inside {opname fromPath toPath afterTiming : String} {marks : FS → List Mark}
    {reachesEnd : FS → Bool} {m : FaultM ℤ}
    (h : HasMarks cfg rgx opname fromPath toPath afterTiming marks reachesEnd m)
    (hop : opname ∈ allowCrashFsOperations) (hh : 0 < s.sharedHolds) :
    Marked (.hook ⟨opname, "before", fromPath, toPath⟩ :: (marks s.fs ++
      if reachesEnd s.fs then ends opname fromPath toPath afterTiming else []))
        m (fun _ _ => True) s := by
  obtain ⟨body, rfl, hbody⟩ := h
  refine marked_hooked hop hh fun s1 h1 hpos => ?_
  rw [← h1]
  exact hbody s1 hpos

variable (cfg rgx) in
lemma hasMarks_writeNull (path : Path) (buf : Mem) (size offset : ℕ) (io : WriteIo)
    (torn : Lfs.TornIo) :
    HasMarks cfg rgx "write" path.str "" "after" (fun _ => [])
      (fun fs => (fs.disk.openWrite path).isSome)
      (Lfs.lfsWriteNull cfg rgx path buf size offset io torn) := by
  refine ⟨_, rfl, fun s hh => wp_bind.mpr ?_⟩
  rw [wp_get]
  dsimp only
  cases s.fs.disk.openWrite path with
  | none => exact Marked.pure rfl
  | some fd =>
      refine Marked.liftFs.step fun _ s2 _ _ => ?_
      refine Marked.liftFs.step fun _ s3 _ _ => ?_
      exact (Marked.tornWrites _ _).step fun _ _ _ _ => Marked.pure rfl

variable (cfg rgx) in
lemma hasMarks_write (path : Path) (buf : Mem) (size offset : ℕ) (fi : FileInfo) (io : WritesIo) :
    HasMarks cfg rgx "write" path.str "" "after" (fun fs => fs.holeMarks cfg path offset fi)
      (fun _ => true) (Lfs.lfsWrite cfg rgx path buf size offset (some fi) io) := by
  refine ⟨_, rfl, fun s hh => ?_⟩
  dsimp only [FS.holeMarks]
  cases hst : s.fs.writeStart cfg path with
  | none => exact Marked.liftFs_none hst
  | some r =>
      obtain ⟨fs1, inode, fileSizeBefore⟩ := r
      refine Marked.liftFs.step fun a s1 hp1 ha => ?_
      rw [hst, Option.some.injEq, Prod.mk.injEq] at ha
      obtain ⟨rfl, rfl⟩ := ha
      have htail : ∀ s2, Marked [] (do
          Lfs.tornWrites ⟨path, buf.read 0 size, offset⟩ io.torn
          pure (FS.writeRes cfg size, true) : FaultM (ℤ × Bool)) (fun r _ => r.2 = true) s2 :=
        fun s2 => (Marked.tornWrites _ _).step fun _ _ _ _ => Marked.pure rfl
      have hpos : 0 < s1.sharedHolds := by rwa [hp1.holds]
      dsimp only
      split_ifs with hd hlt
      · exact (Marked.modify (Passed.setFs s1 _)).step fun _ s2 _ _ => htail s2
      · have hwrite := (hasMarks_writeNull cfg rgx path (fun _ => 0)
          (offset - fileSizeBefore) fileSizeBefore io.fillIo io.fillTorn).inside (by decide) hpos
        rw [FS.nullWriteMarks, ← List.append_nil (Mark.hook _ :: _)]
        exact hwrite.bind fun _ s2 _ _ => Marked.liftFs.step fun _ s3 _ _ => htail s3
      · exact Marked.liftFs.step fun _ s2 _ _ => htail s2

lemma marked_write (hh : 0 < s.sharedHolds) (path : Path) (buf : Mem) (size offset : ℕ)
    (fi : Option FileInfo) (io : WritesIo) :
    Marked (s.fs.writeMarks cfg path offset fi) (Lfs.lfsWrite cfg rgx path buf size offset fi io)
      (fun _ _ => True) s := by
  cases fi with
  | none =>
      exact (hasMarks_writeNull cfg rgx path buf size offset io.io io.torn).inside (by decide) hh
  | some fi => exact (hasMarks_write cfg rgx path buf size offset fi io).inside (by decide) hh

variable (cfg rgx) in
lemma hasMarks_truncate (path : Path) (size : ℕ) (fi : Option FileInfo) (io : WritesIo) :
    HasMarks cfg rgx "truncate" path.str "" "after" (fun fs => fs.growMarks cfg path size fi)
      (fun fs => fs.truncateEnds cfg path fi) (Lfs.lfsTruncate cfg rgx path size fi io) := by
  refine ⟨_, rfl, fun s hh => ?_⟩
  dsimp only [FS.growMarks, FS.truncateEnds, FS.truncateTarget]
  cases htr : (s.fs.lfsGetattr cfg path).bind fun r => r.1.truncateInode cfg path fi with
  | none => exact Marked.liftFs_none htr
  | some r =>
      obtain ⟨fs1, inode⟩ := r
      refine Marked.liftFs.step fun a s1 hp1 ha => ?_
      rw [htr, Option.some.injEq, Prod.mk.injEq] at ha
      obtain ⟨rfl, rfl⟩ := ha
      cases inode with
      | none => exact Marked.pure rfl
      | some inode =>
          have hpos : 0 < s1.sharedHolds := by rwa [hp1.holds]
          -- the metadata and the result, after each of the branches
          have htail : ∀ s2, Marked [] (do
              modify fun s => { s with fs := s.fs.truncateMeta inode size io.io.now }
              if cfg.uninitInt = -1 then pure (-cfg.errno, false) else pure (0, true) :
              FaultM (ℤ × Bool)) (fun r _ => r.2 = decide (cfg.uninitInt ≠ -1)) s2 := by
            intro s2
            refine (Marked.modify (Passed.setFs s2 _)).step fun _ s3 _ _ => ?_
            split_ifs with hu
            · exact Marked.pure (by simp [hu])
            · exact Marked.pure (by simp [hu])
          refine wp_bind.mpr ?_
          rw [wp_get]
          dsimp only
          set previousSize := ((s1.fs.cache.getContentMetadata inode).map Metadata.size).getD 0
          -- growing is a write with hooks of its own
          by_cases hlt : previousSize < size
          · rw [if_pos hlt, if_pos hlt, ← List.append_nil (FS.writeMarks _ _ _ _ _)]
            refine (marked_write hpos path _ _ _ fi io).bind fun res s2 _ _ => ?_
            by_cases hres : res = (size - previousSize : ℕ)
            · rw [if_neg (not_not.mpr hres)]
              exact htail s2
            · rw [if_pos hres]
              exact (Marked.modify (Passed.setFs s2 _)).step fun _ s3 _ _ => htail s3
          · rw [if_neg hlt, if_neg hlt]
            by_cases hgt : size < previousSize
            · rw [if_pos hgt]
              exact Marked.liftFs.step fun _ s2 _ _ => htail s2
            · rw [if_neg hgt]
              exact htail s1

variable (cfg rgx) in
lemma hasMarks_open (path : Path) (flags : Disk.OpenFlags) (io : WritesIo) :
    HasMarks cfg rgx "open" path.str "" "after" (fun fs => fs.openMarks cfg path flags)
      (fun fs => (fs.openFile path flags).isSome) (Lfs.lfsOpen cfg rgx path flags io) := by
  refine ⟨_, rfl, fun s hh => wp_bind.mpr ?_⟩
  rw [wp_get]
  dsimp only [FS.openMarks]
  cases s.fs.openFile path flags with
  | none => exact Marked.pure rfl
  | some fd =>
      cases hg : s.fs.lfsGetattr cfg path with
      | none => exact Marked.liftFs_none (by rw [hg]; rfl)
      | some r =>
          refine Marked.liftFs.step fun a s1 hp1 ha => ?_
          rw [hg, Option.map_some, Option.some.injEq, Prod.mk.injEq] at ha
          have hpos : 0 < s1.sharedHolds := by rwa [hp1.holds]
          dsimp only
          split_ifs with ht
          · have htr := (hasMarks_truncate cfg rgx path 0 (some ⟨fd, false⟩)
              io).inside (by decide) hpos
            rw [ha.1, FS.truncateMarks, ← List.append_nil (Mark.hook _ :: _)]
            exact htr.bind fun _ s2 _ _ => Marked.pure rfl
          · exact Marked.pure rfl

/-- An operation without faults of its own. -/
lemma hasMarks_plain {opname fromPath toPath afterTiming : String}
    {f : FS → Option (FS × ℤ × Bool)} {reachesEnd : FS → Bool}
    (hf : ∀ fs fs' res b, f fs = some (fs', res, b) → b = reachesEnd fs) :
    HasMarks cfg rgx opname fromPath toPath afterTiming (fun _ => []) reachesEnd
      (Lfs.hooked cfg rgx opname fromPath toPath afterTiming (Lfs.plainBody f)) :=
  ⟨_, rfl, fun s _ => Marked.liftFs.mono fun r s' h => hf s.fs s'.fs r.1 r.2 h⟩

variable (cfg rgx) in
lemma hasMarks_fsync (path : Path) (isdatasync : Bool) (io : Engine.SyncIo) :
    HasMarks cfg rgx "fsync" path.str "" "after" (fun _ => []) (fun _ => true)
      (Lfs.lfsFsync cfg rgx path isdatasync io) := by
  refine ⟨_, rfl, fun s _ => ?_⟩
  refine Marked.liftFs.step fun _ s1 _ _ => ?_
  have hrestart : Passed [] s1 { s1 with
      faults := mapFaults s1.faults path.str (mapReorder "write" fun f =>
        { f with counter := 0 }) } :=
    ⟨trivial, clearsOf_mapFaults _ _ (clear?_mapReorder _ _), rfl, rfl, fun hc =>
      hc.mapReorder _ _ _⟩
  refine (Marked.modify hrestart).step fun _ s2 _ _ => ?_
  have hdelete : ∀ w, Passed [] s2 { s2 with pendingWrite := w } := fun w =>
    ⟨trivial, rfl, rfl, rfl, fun hc => ⟨hc.clear, hc.before, hc.after⟩⟩
  refine (Marked.modify ?_).step fun _ s3 _ _ => Marked.liftFs.step fun _ s4 _ _ => Marked.pure rfl
  cases s2.pendingWrite with
  | none => exact .refl s2
  | some w =>
      dsimp only
      split_ifs
      · exact hdelete none
      · exact .refl s2

/-! ### Calls -/

/-- The first hook of an operation was passed, with the faults it meets. -/
structure Headed (cfg : Config) (h : Hook) (s s' : Lfs) : Prop where
  fired : Lfs.Fired cfg h.fromPath (h.met (clearsOf s.faults)) s s'
  clears : clearsOf s'.faults = h.next (clearsOf s.faults)
  calm : Calm s → Calm s'

/-- What comes before the lock is taken. -/
inductive Began (cfg : Config) : Option Hook → Lfs → Lfs → Prop where
  | none (s : Lfs) : Began cfg none s s
  | some {h : Hook} {s s' : Lfs} : Headed cfg h s s' → Began cfg (some h) s s'

lemma Began.failed {head : Option Hook} {e : Halt} (h : Began cfg head s s') (hf : Failed s' e) :
    Failed s e := by
  cases h with
  | none => exact hf
  | some hh => exact hf.imp_right fun ⟨hk, hc⟩ => ⟨hk, fun hs => hc (hh.calm hs)⟩

/-- How a call stops: before its first hook, at that hook, or at one of its marks. -/
inductive Halted (cfg : Config) (c : Call) (s : Lfs) (e : Halt) (s' : Lfs) : Prop where
  | atStart : Failed s e → s'.trace = s.trace → Halted cfg c s e s'
  | atHead {h : Hook} : c.head = some h →
      Lfs.HaltedBy h.fromPath (h.met (clearsOf s.faults)) s e s' → Halted cfg c s e s'
  | inside {s1 : Lfs} : Began cfg c.head s s1 → Stopped (c.lockedMarks cfg s1.fs) s1 e s' →
      Halted cfg c s e s'

/-- A call returns with all its marks passed, or stops. -/
def Call.Spec (cfg : Config) (rgx : Rgx) (c : Call) (s : Lfs) : Prop :=
  wp (c.run cfg rgx) (fun _ s' => ∃ s1, Began cfg c.head s s1 ∧
    Passed (c.lockedMarks cfg s1.fs) s1 s')
    (Halted cfg c s) s

/-- An operation that the application calls. -/
lemma HasMarks.spec {c : Call} {opname fromPath toPath : String}
    (hn : c.names = some (opname, fromPath, toPath)) (hop : opname ∈ allowCrashFsOperations)
    (h : HasMarks cfg rgx opname fromPath toPath c.endTiming (fun fs => c.nestedMarks cfg fs)
      (fun fs => c.reachesEnd cfg fs) (c.run cfg rgx)) (s : Lfs) :
    c.Spec cfg rgx s := by
  obtain ⟨body, hm, hbody⟩ := h
  have hhead : c.head = some ⟨opname, "before", fromPath, toPath⟩ := by rw [Call.head, hn]; rfl
  have hends : c.endMarks = ends opname fromPath toPath c.endTiming := by rw [Call.endMarks, hn]
  rw [Call.Spec, hm, Lfs.hooked_eq, wp_bind]
  refine wp_mono (Marked.triggerCrashFault hop fromPath toPath) ?_ fun e s' he => ?_
  · rintro a s1 ⟨-, rfl⟩
    rw [wp_bind]
    refine wp_mono (Lfs.wp_triggerConfiguredClearFault ⟨opname, "before", fromPath, toPath⟩ s1) ?_
      fun e s' he => .atHead hhead he
    rintro a s2 ⟨hf, hc, hall⟩
    have hbegan : Began cfg c.head s1 s2 := by
      rw [hhead]
      exact .some ⟨hf, hc, fun hcalm => hcalm.hook hf hall⟩
    have hlocked : Marked (c.lockedMarks cfg s2.fs)
        (Lfs.underLock cfg rgx opname fromPath toPath c.endTiming body) (fun _ _ => True) s2 := by
      rw [Call.lockedMarks, hends]
      refine marked_underLock hop fun s3 h3 hpos => ?_
      rw [← h3]
      exact hbody s3 hpos
    refine wp_mono hlocked ?_ fun e s' he => .inside hbegan he
    rintro a s' ⟨hp, -⟩
    exact ⟨s2, hbegan, hp⟩
  · exact .atStart he.of_nil.1 he.of_nil.2

/-- **Every call** runs its first hook and then its marks, or stops at one of them. -/
theorem Call.run_spec (c : Call) (s : Lfs) : c.Spec cfg rgx s := by
  -- the calls that do one thing between their hooks differ in when they reach the second
  cases c with
  | getattr path =>
      have h : Marked [] (Lfs.lfsGetattr cfg path) (fun _ _ => True) s :=
        Marked.liftFs.mono fun _ _ _ => trivial
      refine wp_mono h ?_ fun e s' he => .inside (.none s) he
      rintro a s' ⟨hp, -⟩
      exact ⟨s, .none s, hp⟩
  | create path flags newIno now =>
      refine HasMarks.spec rfl (by decide) (hasMarks_plain fun fs fs' res b h => ?_) s
      rw [Option.map_eq_some_iff] at h
      obtain ⟨r, hr, h⟩ := h
      simp only [Prod.mk.injEq] at h
      rw [← h.2.2]
      simp [Call.reachesEnd, hr]
  | «open» path flags io =>
      refine HasMarks.spec rfl (by decide) ?_ s
      exact hasMarks_open cfg rgx path flags io
  | read path buf size offset fi io =>
      refine HasMarks.spec rfl (by decide) (hasMarks_plain fun fs fs' res b h => ?_) s
      rw [Option.map_eq_some_iff] at h
      obtain ⟨r, hr, h⟩ := h
      simp only [Prod.mk.injEq] at h
      exact h.2.2.symm
  | write path buf size offset fi io =>
      refine HasMarks.spec rfl (by decide) ?_ s
      exact hasMarks_write cfg rgx path buf size offset fi io
  | truncate path size fi io =>
      refine HasMarks.spec rfl (by decide) ?_ s
      exact hasMarks_truncate cfg rgx path size fi io
  | fsync path isdatasync io =>
      refine HasMarks.spec rfl (by decide) ?_ s
      exact hasMarks_fsync cfg rgx path isdatasync io
  | access path allowed =>
      refine HasMarks.spec rfl (by decide) (hasMarks_plain fun fs fs' res b h => ?_) s
      simp only [Option.some.injEq, Prod.mk.injEq] at h
      exact h.2.2.symm
  | rename resolve source dest =>
      refine HasMarks.spec rfl (by decide) (hasMarks_plain fun fs fs' res b h => ?_) s
      simp only [Option.some.injEq, Prod.mk.injEq] at h
      exact h.2.2.symm
  | link source dest =>
      refine HasMarks.spec rfl (by decide) (hasMarks_plain fun fs fs' res b h => ?_) s
      simp only [Option.some.injEq, Prod.mk.injEq] at h
      exact h.2.2.symm
  | symlink target dest newIno =>
      refine HasMarks.spec rfl (by decide) (hasMarks_plain fun fs fs' res b h => ?_) s
      simp only [Option.some.injEq, Prod.mk.injEq] at h
      exact h.2.2.symm
  | unlink path =>
      refine HasMarks.spec rfl (by decide) (hasMarks_plain fun fs fs' res b h => ?_) s
      simp only [Option.some.injEq, Prod.mk.injEq] at h
      exact h.2.2.symm

end LazyFS
