import LazyFS.Guarantees.NameCalls
import LazyFS.Guarantees.CrashConsistency
import LazyFS.Guarantees.Handles

/-!
**Names and contents**: runs that mix calls on files with calls on their names.

* `NameOp`, `NameOp.run`: a call on names, whose paths the kernel looks up first.
* `NameOp.Plain`: what it is called on; `Shows.run_name`: the call succeeds, and every file keeps
  its contents under its other names, whatever the invariant of the views.
* `names_readBack`: after every run each file is shown with its contents and its link count, by any
  name.
* `names_crashConsistent`: after a clear each file is what it was at its last `lfs_fsync`, by any
  name.
-/

namespace LazyFS

open Engine

variable {cfg : Config}

/-- A call on the names of files. -/
inductive NameOp where
  | create (path : Path) (flags : Disk.OpenFlags) (newIno : ℕ) (now : Timespec)
  | link (source dest : Path)
  | symlink (path : Path) (newIno : ℕ)
  | unlink (path : Path)
  | rename (resolve : Path → Resolved) (source dest : Path)

/-- The look-up of a path. -/
def FS.lookUp (cfg : Config) (fs : FS) (path : Path) : Option FS :=
  (fs.lfsGetattr cfg path).map Prod.fst

namespace NameOp

/-- The file system after a call, with the result. -/
def run (cfg : Config) (fs : FS) : NameOp → Option (FS × ℤ)
  | create path flags newIno now => do
      let fs ← fs.lookUp cfg path
      (fs.lfsCreate cfg path flags newIno now).map fun r => (r.1, r.2.1)
  | link source dest => do
      let fs ← fs.lookUp cfg source
      let fs ← fs.lookUp cfg dest
      some (fs.lfsLink cfg source dest)
  | symlink path newIno => do
      let fs ← fs.lookUp cfg path
      some (fs.lfsSymlink cfg path newIno)
  | unlink path => do
      let fs ← fs.lookUp cfg path
      some (fs.lfsUnlink cfg path)
  | rename resolve source dest => do
      let fs ← fs.lookUp cfg source
      let fs ← fs.lookUp cfg dest
      some (fs.lfsRename cfg resolve source dest)

/-- Free names are created, with an inode that no name has, which may have been a file's before;
regular files are linked and renamed, onto no other name of theirs; no directory is removed or
replaced. -/
def Plain (d : Disk) : NameOp → Prop
  | create path _ newIno _ => d.Free path ∧ d.nlink newIno = 0
  | link source dest => (∃ i, d.ino source = some i) ∧ d.Free dest
  | symlink path _ => d.Free path
  | unlink path => (∃ i, d.ino path = some i) ∨ ∃ k, d.entries.lookup path = some (.symlink k)
  | rename _ source dest => ∃ i, d.ino source = some i ∧ d.Replaceable i dest

/-- The contents after a call: a new file is empty, and no other file changes, as long as it has a
name. -/
def logical (d : Disk) (c : ℕ → List UInt8) : NameOp → ℕ → List UInt8
  | create _ _ newIno _ => Function.update c newIno []
  | link .. | symlink .. => c
  | unlink path | rename _ _ path => d.forget path c

/-- The names after a call. -/
def entry (d : Disk) (op : NameOp) (q : Path) : Option Obj :=
  match op with
  | create path _ newIno _ => if q = path then some (.file newIno) else d.entries.lookup q
  | link source dest => if q = dest then d.entries.lookup source else d.entries.lookup q
  | symlink path newIno => if q = path then some (.symlink newIno) else d.entries.lookup q
  | unlink path => if q = path then none else d.entries.lookup q
  | rename _ source dest =>
      if q = dest then d.entries.lookup source else if q = source then none else d.entries.lookup q

/-- The contents in the backing file system after a call: a new file is empty. -/
def backing (c : ℕ → List UInt8) : NameOp → ℕ → List UInt8
  | create _ _ newIno _ => Function.update c newIno []
  | _ => c

end NameOp

/-! ### One call -/

namespace FS

variable {fs fs' : FS} {P : List UInt8 → FileView → Prop} {c : ℕ → List UInt8} {i j : ℕ}
  {path source dest : Path}

/-- A file is looked up: nothing changes but that it is cached and its name mapped. -/
lemma Shows.lookUp (hs : Shows cfg P fs c) (hL : fs.Linked) (hi : fs.disk.ino path = some i) :
    ∃ fs', fs.lookUp cfg path = some fs' ∧ Opened cfg path i fs fs' ∧ Shows cfg P fs' c ∧
    fs'.Linked := by
  obtain ⟨fs', st, hget, -, hopen, hs'⟩ := hs.getattr hi
  exact ⟨fs', by rw [FS.lookUp, hget, Option.map_some], hopen, hs', (hL.getattr hi hs.sound hget).1⟩

/-- A name of anything else is looked up. -/
lemma lookUp_of_none (hi : fs.disk.ino path = none) : fs.lookUp cfg path = some fs := by
  rw [FS.lookUp, FS.lfsGetattr]
  rw [Disk.ino] at hi
  cases h : fs.disk.entries.lookup path with
  | none => rfl
  | some o =>
      cases o with
      | file i =>
          rw [h] at hi
          cases hi
      | symlink k => rfl
      | dir => rfl

lemma ino_of_free (h : fs.disk.Free path) : fs.disk.ino path = none := by rw [Disk.ino, h.1]

/-- The name that a file is renamed to is looked up, which keeps the file looked up. -/
lemma Shows.lookUp_dest (hs : Shows cfg P fs c) (dest : Path) (hL : fs.Linked)
    (hi : fs.LookedUp source i) :
    ∃ fs', fs.lookUp cfg dest = some fs' ∧ fs'.disk = fs.disk ∧ Shows cfg P fs' c ∧ fs'.Linked ∧
      fs'.LookedUp source i ∧ ∀ j, fs'.disk.ino dest = some j → fs'.LookedUp dest j := by
  cases hd : fs.disk.ino dest with
  | none =>
      refine ⟨fs, lookUp_of_none hd, rfl, hs, hL, hi, fun j hj => ?_⟩
      rw [hd] at hj
      cases hj
  | some j =>
      obtain ⟨fs', hget, hopen, hs', hL'⟩ := hs.lookUp hL hd
      refine ⟨fs', hget, hopen.disk, hs', hL', hi.keep hopen hd, fun k hk => ?_⟩
      rw [hopen.disk, hd, Option.some.injEq] at hk
      exact hk ▸ hopen.lookedUp hd

/-- **One call on names** succeeds, and every file keeps its contents and its link count. -/
theorem Shows.run_name (h : OnePage cfg) (hs : Shows cfg P fs c) (hW : fs.disk.WellFormed)
    (hL : fs.Linked) (hP : ∀ j, P (fs.disk.bytes j) (.bare (fs.disk.bytes j)))
    (hnil : P [] (.bare [])) {op : NameOp} (hop : op.Plain fs.disk) :
    ∃ fs', op.run cfg fs = some (fs', 0) ∧ fs'.disk.WellFormed ∧ fs'.Linked ∧
      (∀ q, fs'.disk.entries.lookup q = op.entry fs.disk q) ∧
      fs'.disk.bytes = op.backing fs.disk.bytes ∧ Shows cfg P fs' (op.logical fs.disk c) := by
  have hnotDir : ∀ {p}, fs.disk.Free p → ¬ fs.disk.isDir p := by
    intro p hfree
    rw [Disk.isDir, hfree.1]
    simp
  cases op with
  | create path flags newIno now =>
      obtain ⟨hfree, hnew⟩ := hop
      obtain ⟨fs', fd, hcall, hentries, hbytes, hs', hL'⟩ :=
        hs.lfsCreate hL hfree flags hnew now hnil
      have hentry : ∀ q, fs'.disk.entries.lookup q
          = if q = path then some (.file newIno) else fs.disk.entries.lookup q := fun q => by
        rw [hentries, Disk.lookup_setEntry]
      refine ⟨fs', ?_, hW.change path (some (.file newIno)) (hnotDir hfree) (.inr hfree.2) hentry,
        hL', hentry, hbytes, hs'⟩
      rw [NameOp.run, lookUp_of_none (ino_of_free hfree), Option.bind_eq_bind,
        Option.bind_some, hcall]
      rfl
  | link source dest =>
      obtain ⟨⟨i, hi⟩, hfree⟩ := hop
      obtain ⟨fs1, hget, hopen, hs1, hL1⟩ := hs.lookUp hL hi
      have hfree1 : fs1.disk.Free dest := by rwa [hopen.disk]
      obtain ⟨fs', hcall, hdisk, hs', hL'⟩ := hs1.lfsLink cfg hL1 (hopen.lookedUp hi) hfree1
      rw [hopen.disk] at hdisk
      have hentry : ∀ q, fs'.disk.entries.lookup q
          = if q = dest then some (.file i) else fs.disk.entries.lookup q := fun q => by
        rw [hdisk, Disk.lookup_setEntry]
      refine ⟨fs', ?_, hW.change dest (some (.file i)) (hnotDir hfree) (.inr hfree.2) hentry, hL',
        fun q => ?_, by rw [hdisk]; rfl, hs'⟩
      · rw [NameOp.run, hget, Option.bind_eq_bind, Option.bind_some,
          lookUp_of_none (ino_of_free hfree1), Option.bind_some, hcall]
      · rw [hentry, NameOp.entry, Disk.lookup_of_ino hi]
  | symlink path newIno =>
      have hfree : fs.disk.Free path := hop
      obtain ⟨fs', hcall, hdisk, hs', hL'⟩ := hs.lfsSymlink cfg hL hfree newIno
      have hentry : ∀ q, fs'.disk.entries.lookup q
          = if q = path then some (.symlink newIno) else fs.disk.entries.lookup q := fun q => by
        rw [hdisk, Disk.lookup_setEntry]
      refine ⟨fs', ?_, hW.change path (some (.symlink newIno)) (hnotDir hfree)
        (.inr hfree.2) hentry, hL', hentry, by rw [hdisk]; rfl, hs'⟩
      rw [NameOp.run, lookUp_of_none (ino_of_free hfree), Option.bind_eq_bind,
        Option.bind_some, hcall]
  | unlink path =>
      -- a file or a symbolic link
      obtain ⟨fs', hrun, hdisk, hs', hL'⟩ : ∃ fs', NameOp.run cfg fs (.unlink path)
        = some (fs', 0) ∧
          fs'.disk = fs.disk.eraseEntry path ∧ Shows cfg P fs' (fs.disk.forget path c) ∧
          fs'.Linked := by
        rcases hop with ⟨i, hi⟩ | ⟨k, hk⟩
        · obtain ⟨fs1, hget, hopen, hs1, hL1⟩ := hs.lookUp hL hi
          obtain ⟨fs', hcall, hdisk, hs', hL'⟩ := hs1.lfsUnlink h hL1 (hopen.lookedUp hi)
            (by rw [hopen.disk]; exact hP i)
          rw [hopen.disk] at hdisk hs'
          refine ⟨fs', ?_, hdisk, hs', hL'⟩
          rw [NameOp.run, hget, Option.bind_eq_bind, Option.bind_some, hcall]
        · have hino : fs.disk.ino path = none := by rw [Disk.ino, hk]
          obtain ⟨fs', hcall, hdisk, hs', hL'⟩ := hs.lfsUnlink_symlink cfg hL hk
          refine ⟨fs', ?_, hdisk, ?_, hL'⟩
          · rw [NameOp.run, lookUp_of_none hino, Option.bind_eq_bind, Option.bind_some, hcall]
          · rw [Disk.forget, hino]
            exact hs'
      have hnot : ¬ fs.disk.isDir path := by
        rcases hop with ⟨i, hi⟩ | ⟨k, hk⟩
        · exact Disk.not_isDir_of_ino hi
        · rw [Disk.isDir, hk]
          simp
      have hentry : ∀ q, fs'.disk.entries.lookup q = if q = path then
          none else fs.disk.entries.lookup q :=
        fun q => by rw [hdisk, Disk.lookup_eraseEntry]
      exact ⟨fs', hrun, hW.change path none hnot (.inl rfl) hentry, hL',
        hentry, by rw [hdisk]; rfl, hs'⟩
  | rename resolve source dest =>
      obtain ⟨i, hi, hdest⟩ := hop
      obtain ⟨fs1, hget1, hopen, hs1, hL1⟩ := hs.lookUp hL hi
      obtain ⟨fs2, hget2, hdisk2, hs2, hL2, hsource, hj⟩ :=
        hs1.lookUp_dest dest hL1 (hopen.lookedUp hi)
      have hd : fs2.disk = fs.disk := hdisk2.trans hopen.disk
      obtain ⟨fs', hcall, hentry, hW', hbytes, hs', hL'⟩ :=
        hs2.lfsRename h (by rwa [hd]) hL2 resolve hsource
        (by rwa [hd]) hj (by rw [hd]; exact hP)
      rw [hd] at hbytes hs' hentry
      refine ⟨fs', ?_, hW', hL', fun q => ?_, hbytes, hs'⟩
      · rw [NameOp.run, hget1, Option.bind_eq_bind, Option.bind_some, hget2,
          Option.bind_some, hcall]
      · rw [hentry, NameOp.entry, Disk.lookup_of_ino hi]

/-- The names are in order: every file is shown, below directories, and the cached ones are
counted. -/
structure InOrder (cfg : Config) (P : List UInt8 → FileView → Prop) (fs : FS)
    (c : ℕ → List UInt8) : Prop where
  shows : Shows cfg P fs c
  wellFormed : fs.disk.WellFormed
  linked : fs.Linked

lemma inOrder_new (h : OnePage cfg) {d : Disk} (hd : d.WellFormed)
    (hP : ∀ i, P (d.bytes i) (.bare (d.bytes i))) : InOrder cfg P ⟨.new cfg, d⟩ d.bytes :=
  ⟨shows_new h d hP, hd, fun _ _ hm => by cases hm⟩

/-- A call on a file keeps the names. -/
lemma InOrder.run_file (h : OnePage cfg) (hlru : cfg.applyLruEviction = false)
    (hs : InOrder cfg P fs c) {op : FileOp} (hop : op.Own cfg fs) {res : FileRes}
    (hrun : op.run cfg fs = some (fs', res)) (hnames : Disk.SameNames fs.disk fs'.disk)
    {c' : ℕ → List UInt8} (hs' : Shows cfg P fs' c') :
    InOrder cfg P fs' c' := by
  refine ⟨hs', ⟨?_, fun p o hp => ?_⟩, hs.linked.run h hlru hs.shows.sound hop hrun⟩
  · rw [Disk.isDir, hnames.entries]
    exact hs.wellFormed.root
  · rw [hnames.entries] at hp
    rw [Disk.isDir, hnames.entries]
    exact hs.wellFormed.parent p o hp

/-- A call on names keeps them in order. -/
lemma InOrder.run_name (h : OnePage cfg) (hs : InOrder cfg P fs c)
    (hP : ∀ j, P (fs.disk.bytes j) (.bare (fs.disk.bytes j))) (hnil : P [] (.bare [])) {op : NameOp}
    (hop : op.Plain fs.disk) :
    ∃ fs', op.run cfg fs = some (fs', 0) ∧ (∀ q, fs'.disk.entries.lookup q = op.entry fs.disk q) ∧
      fs'.disk.bytes = op.backing fs.disk.bytes ∧ InOrder cfg P fs' (op.logical fs.disk c) := by
  obtain ⟨fs', hrun, hW, hL, hentry, hbytes, hs'⟩ :=
    hs.shows.run_name h hs.wellFormed hs.linked hP hnil hop
  exact ⟨fs', hrun, hentry, hbytes, hs', hW, hL⟩

/-- A call of a run changes its own file only. -/
lemma Shows.own_of_usual (hs : Holding cfg fs c) {op : FileOp} (hop : op.Usual cfg fs) :
    op.Own cfg fs := by
  cases op with
  | getattr path => exact hop.1
  | read path buf size offset fi io =>
      obtain ⟨⟨i, hi, hr, hfi, hio⟩, -⟩ := hop
      exact ⟨i, hi, hr.size_pos, hr.end_le_word, hfi, hio⟩
  | write path buf size offset fi io fillIo =>
      obtain ⟨⟨i, hi, hr, hfi, hio, hfillIo⟩, -⟩ := hop
      exact ⟨i, hi, hr.size_pos, hr.end_le_word, hfi, hio, hfillIo⟩
  | truncate path n fi io fillIo =>
      obtain ⟨⟨i, hi, hn, -, hfi, hio, hfillIo⟩, -⟩ := hop
      exact ⟨i, hi, by omega, hfi, hio, hfillIo⟩
  | fsync path isdatasync io =>
      obtain ⟨i, hi⟩ := hop
      exact ⟨i, hi, (hs.file i).bounded⟩
  | clear => trivial

/-- The same, for files whose clean blocks are in the backing file system. -/
lemma Shows.own_of_proper (hs : Keeps cfg fs c) {op : FileOp} (hop : op.Proper cfg fs) :
    op.Own cfg fs := by
  have hmax := maxSize_le_offT cfg.ioBlockSize
  cases op with
  | getattr path => exact hop
  | read path buf size offset fi io =>
      obtain ⟨i, hi, hsize, hw, hfi, hio⟩ := hop
      exact ⟨i, hi, hsize, by omega, hfi, hio⟩
  | write path buf size offset fi io fillIo =>
      obtain ⟨i, hi, hsize, hlen, hfi, hio, hfillIo⟩ := hop
      exact ⟨i, hi, hsize, by omega, hfi, hio, hfillIo⟩
  | truncate path n fi io fillIo =>
      obtain ⟨i, hi, -, hlen, hfi, hio, hfillIo⟩ := hop
      exact ⟨i, hi, by omega, hfi, hio, hfillIo⟩
  | fsync path isdatasync io =>
      obtain ⟨i, hi, -⟩ := hop
      exact ⟨i, hi, (hs.file i).bounded⟩
  | clear => trivial

end FS

/-! ### Runs -/

/-- A call on a file or on a name. -/
inductive AnyOp where
  | file (op : FileOp)
  | name (op : NameOp)

namespace AnyOp

/-- One call, with the contents of the files; a call on names returns 0. -/
def step (cfg : Config) (s : FS × (ℕ → List UInt8)) : AnyOp → Option (FS × (ℕ → List UInt8))
  | file op => op.step cfg s
  | name op => (op.run cfg s.1).bind fun r =>
      if r.2 = 0 then some (r.1, op.logical s.1.disk s.2) else none

/-- The calls of a run. -/
def Usual (cfg : Config) (fs : FS) : AnyOp → Prop
  | file op => op.Usual cfg fs
  | name op => op.Plain fs.disk

/-- The same calls, as they are needed for what a crash leaves. -/
def Proper (cfg : Config) (fs : FS) : AnyOp → Prop
  | file op => op.Proper cfg fs ∧ op.Roomy cfg fs
  | name op => op.Plain fs.disk

end AnyOp

/-- One call, with the contents at the last `lfs_fsync`. -/
def CrashState.fsStep (cfg : Config) (s : CrashState) : AnyOp → Option CrashState
  | .file op => s.step cfg op
  | .name op => (op.run cfg s.fs).bind fun r =>
      if r.2 = 0 then some ⟨r.1, op.logical s.fs.disk s.contents, op.backing s.synced⟩ else none

/-- The file at `path` reports as many links as it has names. -/
def FS.CountsLinks (cfg : Config) (fs : FS) (path : Path) (i : ℕ) : Prop :=
  ∃ fs' st, fs.lfsGetattr cfg path = some (fs', .reg st) ∧ st.stIno = i ∧
    st.stNlink = fs.disk.nlink i

lemma FS.Linked.countsLinks {fs : FS} {path : Path} {i : ℕ} (hL : fs.Linked) (hS : fs.Sound cfg)
    (hi : fs.disk.ino path = some i) : fs.CountsLinks cfg path i := by
  obtain ⟨fs', st, hget, -⟩ := hS.lfsGetattr hi
  obtain ⟨-, st', heq, hst⟩ := hL.getattr hi hS hget
  obtain rfl := StatRes.reg.inj heq
  exact ⟨fs', st, hget, hst⟩

/-- One call of a run. -/
lemma FS.InOrder.step (h : OnePage cfg) (hlru : cfg.applyLruEviction = false)
    {s : FS × (ℕ → List UInt8)} (hs : FS.InOrder cfg (FileView.Whole cfg.ioBlockSize) s.1 s.2)
    {op : AnyOp} (hop : op.Usual cfg s.1) :
    ∃ s', op.step cfg s = some s' ∧ FS.InOrder cfg (FileView.Whole cfg.ioBlockSize) s'.1 s'.2 := by
  cases op with
  | file op =>
      obtain ⟨fs', res, hrun, hnames, hs'⟩ := hs.shows.run_usual h op hop
      exact ⟨_, by rw [AnyOp.step, FileOp.step, hrun, Option.map_some],
        hs.run_file h hlru (hs.shows.own_of_usual hop) hrun hnames hs'⟩
  | name op =>
      obtain ⟨fs', hrun, -, -, hs'⟩ := hs.run_name h (fun j => .bare _ _) (.bare _ _) hop
      exact ⟨_, by rw [AnyOp.step, hrun, Option.bind_some, if_pos rfl], hs'⟩

/-- **Read your writes, by any name.**  Every run of calls on files and on names succeeds, and after
it each file is shown with its contents and its link count by each of its names. -/
theorem names_readBack (h : OnePage cfg) (hlru : cfg.applyLruEviction = false) {d : Disk}
    (hd : d.WellFormed) {ops : List AnyOp}
    (hops : Runs.Guarded (AnyOp.step cfg) (fun s op => op.Usual cfg s.1)
      (⟨.new cfg, d⟩, d.bytes) ops) :
    ∃ s, Runs.run (AnyOp.step cfg) (⟨.new cfg, d⟩, d.bytes) ops = some s ∧
      ∀ path i, s.1.disk.ino path = some i →
        s.1.ReadsBack cfg path i (s.2 i) ∧ s.1.CountsLinks cfg path i := by
  obtain ⟨s, hrun, hs⟩ := Runs.run_of_guarded
    (P := fun s : FS × (ℕ → List UInt8) => FS.InOrder cfg (FileView.Whole cfg.ioBlockSize) s.1 s.2)
    (fun s op hs hop => hs.step h hlru hop) (FS.inOrder_new h hd fun i => .bare _ _) hops
  exact ⟨s, hrun, fun path i hi =>
    ⟨hs.shows.readsBack h hi, hs.linked.countsLinks hs.shows.sound hi⟩⟩

/-- A file is written, linked into a directory and removed under its old name. -/
def moved : List AnyOp := [.file writeAbcd, .name (.link ["f"] ["d", "h"]), .name (.unlink ["f"])]

lemma wellFormed_treeDisk : FS.treeDisk.WellFormed :=
  FS.wellFormed_of_toList (by decide +kernel) (by decide +kernel)

/-- The file is found by its new name. -/
theorem names_readBack_moved : ∃ s,
    Runs.run (AnyOp.step (.tiny 2 false))
    (⟨.new (.tiny 2 false), FS.treeDisk⟩, FS.treeDisk.bytes) moved = some s ∧
      ∀ path i, s.1.disk.ino path = some i →
        s.1.ReadsBack (.tiny 2 false) path i (s.2 i) ∧ s.1.CountsLinks (.tiny 2 false) path i := by
  refine names_readBack (Config.onePage_tiny 2 false) rfl wellFormed_treeDisk
    ⟨⟨⟨1, by decide +kernel, ⟨by decide, by decide, by decide, by decide⟩, ⟨rfl, rfl, rfl⟩,
      ⟨rfl, fun _ => rfl, fun _ => rfl⟩, ⟨rfl, fun _ => rfl, fun _ => rfl⟩⟩, nofun⟩, fun s1 h1 =>
    ⟨?_, fun s2 h2 => ⟨.inl ⟨1, ?_⟩, fun _ _ => trivial⟩⟩⟩
  · have hdisk : (AnyOp.step (.tiny 2 false) (⟨.new (.tiny 2 false), FS.treeDisk⟩,
        FS.treeDisk.bytes)
        (.file writeAbcd)).map (fun s => (s.1.disk.ino ["f"], decide (s.1.disk.Free ["d", "h"])))
        = some (some 1, true) := by decide +kernel
    rw [h1, Option.map_some, Option.some.injEq, Prod.mk.injEq, decide_eq_true_eq] at hdisk
    exact ⟨⟨1, hdisk.1⟩, hdisk.2⟩
  · have hdisk : ((AnyOp.step (.tiny 2 false) (⟨.new (.tiny 2 false), FS.treeDisk⟩,
        FS.treeDisk.bytes)
        (.file writeAbcd)).bind fun s =>
          (AnyOp.step (.tiny 2 false) s (.name (.link ["f"] ["d", "h"]))).map
          fun s => s.1.disk.ino ["f"]) = some (some 1) := by decide +kernel
    rw [h1, Option.bind_some, h2, Option.map_some, Option.some.injEq] at hdisk
    exact hdisk

/-! ### After a crash -/

/-- One call keeps the backing files what was synced. -/
lemma CrashState.Inv.fsStep (h : OnePage cfg) (hlru : cfg.applyLruEviction = false) {s : CrashState}
    (hs : s.Inv cfg) (hW : s.fs.disk.WellFormed) (hL : s.fs.Linked) {op : AnyOp}
    (hop : op.Proper cfg s.fs) :
    ∃ s', s.fsStep cfg op = some s' ∧ s'.Inv cfg ∧ s'.fs.disk.WellFormed ∧ s'.fs.Linked := by
  cases op with
  | file op =>
      obtain ⟨s', hstep, hs'⟩ := hs.step h hlru hop.1 hop.2
      obtain ⟨fs', res, hrun, hnames, hs2, -⟩ := hs.keeps.run h op hop.1 (FS.roomy_of_off hlru op)
      obtain ⟨-, hW', hL'⟩ :=
        FS.InOrder.run_file h hlru ⟨hs.keeps, hW, hL⟩ (hs.keeps.own_of_proper hop.1)
        hrun hnames hs2
      rw [CrashState.step, hrun, Option.map_some, Option.some.injEq] at hstep
      subst hstep
      exact ⟨_, by rw [CrashState.fsStep, CrashState.step, hrun, Option.map_some], hs', hW', hL'⟩
  | name op =>
      obtain ⟨fs', hrun, -, hbytes, hs', hW', hL'⟩ := FS.InOrder.run_name h ⟨hs.keeps, hW, hL⟩
        (fun j => .bare (hs.keeps.file j).disk_le) (.bare (Nat.zero_le _)) hop
      refine ⟨_, by rw [CrashState.fsStep, hrun, Option.bind_some, if_pos rfl],
        ⟨hs', fun i => ?_⟩, hW', hL'⟩
      have hsynced : s.fs.disk.bytes = s.synced := funext hs.disk
      exact congrFun (hbytes.trans (congrArg op.backing hsynced)) i

/-- **Crash consistency, by any name.**  Every run of calls on files and on names, with enough free
pages, succeeds, and after a clear each file is what it was at its last `lfs_fsync` by each of its
names. -/
theorem names_crashConsistent (h : OnePage cfg) (hlru : cfg.applyLruEviction = false) {d : Disk}
    (hd : d.WellFormed) (hsize : ∀ i, (d.bytes i).length ≤ maxSize cfg.ioBlockSize)
    {ops : List AnyOp} (hops : Runs.Guarded (CrashState.fsStep cfg) (fun s op => op.Proper cfg s.fs)
      (.start cfg d) ops) :
    ∃ s s', Runs.run (CrashState.fsStep cfg) (.start cfg d) ops = some s ∧
    s.step cfg .clear = some s' ∧
      ∀ path i, s.fs.disk.ino path = some i → s'.fs.Displays cfg path i (s.synced i) := by
  obtain ⟨s, hrun, hs, hW, hL⟩ := Runs.run_of_guarded
    (P := fun s : CrashState => s.Inv cfg ∧ s.fs.disk.WellFormed ∧ s.fs.Linked)
    (fun s op hs hop => hs.1.fsStep h hlru hs.2.1 hs.2.2 hop)
    ⟨CrashState.inv_start h hsize, hd, (FS.inOrder_new h hd fun i =>
      FileView.Kept.bare (hsize i)).linked⟩ hops
  obtain ⟨s', hclear, hs'⟩ := hs.cleared h
  refine ⟨s, s', hrun, hclear, fun path i hi => hs'.keeps.displays h.pos ?_ ?_⟩
  · rw [CrashState.step, FileOp.run, Option.map_some, Option.some.injEq] at hclear
    rw [← hclear]
    exact hi
  · rw [hs'.bare i]
    exact FileView.clamped_bare

/-- The file is lost when it is moved without an `lfs_fsync`, by its new name too. -/
theorem names_crashConsistent_moved : ∃ s s',
    Runs.run (CrashState.fsStep (.tiny 2 false))
    (.start (.tiny 2 false) FS.treeDisk) moved = some s ∧
      s.step (.tiny 2 false) .clear = some s' ∧
      ∀ path i, s.fs.disk.ino path = some i →
      s'.fs.Displays (.tiny 2 false) path i (s.synced i) := by
  refine names_crashConsistent (Config.onePage_tiny 2 false) rfl wellFormed_treeDisk
    (fun _ => Nat.zero_le _)
    ⟨⟨⟨1, by decide +kernel, by decide, by decide, ⟨rfl, rfl, rfl⟩,
      ⟨rfl, fun _ => rfl, fun _ => rfl⟩,
      ⟨rfl, fun _ => rfl, fun _ => rfl⟩⟩, fun i hi => ?_⟩, fun s1 h1 =>
    ⟨?_, fun s2 h2 => ⟨.inl ⟨1, ?_⟩, fun _ _ => trivial⟩⟩⟩
  · have hino : FS.treeDisk.ino ["f"] = some 1 := by decide +kernel
    obtain rfl : 1 = i := Option.some.inj (hino.symm.trans hi)
    decide +kernel
  · have hdisk : (CrashState.fsStep (.tiny 2 false) (.start (.tiny 2 false) FS.treeDisk)
        (.file writeAbcd)).map (fun s => (s.fs.disk.ino ["f"], decide (s.fs.disk.Free ["d", "h"])))
        = some (some 1, true) := by decide +kernel
    rw [h1, Option.map_some, Option.some.injEq, Prod.mk.injEq, decide_eq_true_eq] at hdisk
    exact ⟨⟨1, hdisk.1⟩, hdisk.2⟩
  · have hdisk : ((CrashState.fsStep (.tiny 2 false) (.start (.tiny 2 false) FS.treeDisk)
        (.file writeAbcd)).bind fun s => (CrashState.fsStep (.tiny 2 false) s
          (.name (.link ["f"] ["d", "h"]))).map fun s => s.fs.disk.ino ["f"]) = some (some 1) := by
      decide +kernel
    rw [h1, Option.bind_some, h2, Option.map_some, Option.some.injEq] at hdisk
    exact hdisk

end LazyFS
