import LazyFS.Guarantees.Names
import LazyFS.Support.FileSpec

/-!
**LazyFS refines a file system whose contents are durable when they are synced.**

* `SysOp`: a call on a file or on a name, a clear of the cache, or a new mount after the process is
  killed; `SysOp.abstract` is the operation it stands for, and `SysOp.observe` what its caller sees
  of the result.
* `Refines`: the abstract file system that a state stands for.
* `lfs_refines`: every run of calls gives the callers the answers of the abstract file system.
-/

namespace LazyFS

open Engine

variable {cfg : Config}

/-- A call, or a new mount after the process is killed. -/
inductive SysOp where
  | file (op : FileOp)
  | name (op : NameOp)
  | remount

/-- What a call returns. -/
inductive SysRes where
  | file (r : FileRes)
  | name (r : ℤ)
  | mounted

namespace SysOp

/-- The file system after a call, with the result; only the backing file system survives a kill. -/
def run (cfg : Config) (fs : FS) : SysOp → Option (FS × SysRes)
  | file op => (op.run cfg fs).map fun r => (r.1, .file r.2)
  | name op => (op.run cfg fs).map fun r => (r.1, .name r.2)
  | remount => some (⟨.new cfg, fs.disk⟩, .mounted)

/-- The operation that a call stands for. -/
def abstract : SysOp → FileSpec.Op Path ℕ UInt8
  | file (.getattr path) => .stat path
  | file (.read path _ size offset _ _) => .read path size offset
  | file (.write path buf size offset ..) => .write path offset (buf.read 0 size)
  | file (.truncate path n ..) => .truncate path n
  | file (.fsync path ..) => .sync path
  | file .clear => .crash
  | name (.create path _ newIno _) => .create path newIno
  | name (.link source dest) => .link source dest
  | name (.symlink path _) => .symlink path
  | name (.unlink path) => .unlink path
  | name (.rename _ source dest) => .rename source dest
  | remount => .crash

/-- What the caller sees: the size and the links, the bytes up to the count returned, and whether
all was done; the variable that `lfs_truncate` returns is not initialised. -/
def observe : SysOp → SysRes → FileSpec.Res UInt8
  | file (.getattr _), .file (.stat (.reg st)) => .stat st.stSize st.stNlink
  | file (.read ..), .file (.data r buf) => if 0 ≤ r then .bytes (buf.read 0 r.toNat) else .failed
  | file (.write _ _ size ..), .file (.ret r) => if r = size then .done else .failed
  | file (.truncate ..), .file (.ret _) => .done
  | file (.fsync ..), .file (.ret r) => if r = 0 then .done else .failed
  | file .clear, .file (.ret _) => .done
  | name _, .name r => if r = 0 then .done else .failed
  | remount, .mounted => .done
  | _, _ => .failed

/-- The calls of a run: no truncation cuts, the backing calls succeed and the pages that are needed
are free. -/
def Fine (cfg : Config) (fs : FS) : SysOp → Prop
  | file op => op.Usual cfg fs ∧ op.Proper cfg fs ∧ op.Roomy cfg fs
  | name op => op.Plain fs.disk
  | remount => True

end SysOp

/-- What a name names. -/
def Obj.entry : Obj → FileSpec.Entry ℕ
  | .file i => .file i
  | .symlink _ => .other
  | .dir => .other

/-- The blocks and the backing file are the contents, exactly. -/
def FileView.Faithful (B : ℕ) (c : List UInt8) (f : FileView) : Prop := Kept B c f ∧ Whole B c f

/-- The abstract file system that a state stands for. -/
structure Refines (cfg : Config) (fs : FS) (s : FileSpec.State Path ℕ UInt8) : Prop where
  names : ∀ p, s.names p = (fs.disk.entries.lookup p).map Obj.entry
  shows : ∃ c, FS.InOrder cfg (FileView.Faithful cfg.ioBlockSize) fs c ∧
    ∀ i, 0 < fs.disk.nlink i → c i = s.contents i
  durable : ∀ i, fs.disk.bytes i = s.durable i

/-- A backing file system before anything is written. -/
def Disk.spec (d : Disk) : FileSpec.State Path ℕ UInt8 :=
  ⟨fun p => (d.entries.lookup p).map Obj.entry, d.bytes, d.bytes⟩

namespace Refines

variable {fs fs' : FS} {s : FileSpec.State Path ℕ UInt8} {i : ℕ} {p : Path}

lemma ino (hR : Refines cfg fs s) (p : Path) : s.ino p = fs.disk.ino p := by
  rw [FileSpec.State.ino, Disk.ino, hR.names]
  cases fs.disk.entries.lookup p with
  | none => rfl
  | some o => cases o <;> rfl

/-- The links are the names. -/
lemma links (hR : Refines cfg fs s) (i : ℕ) : s.links i = fs.disk.nlink i := by
  have hset : {p | s.ino p = some i} = ↑(fs.disk.names i) := by
    ext p
    rw [Set.mem_ofPred_eq, hR.ino, Finset.mem_coe, Disk.mem_names]
  rw [FileSpec.State.links, hset, Set.ncard_coe_finset, Disk.card_names]

end Refines

/-! ### Files -/

namespace FS

variable {fs fs' : FS} {c : ℕ → List UInt8} {i : ℕ} {P Q : List UInt8 → FileView → Prop}

lemma Shows.and (h : Shows cfg P fs c) (h' : Shows cfg Q fs c) :
    Shows cfg (fun c f => P c f ∧ Q c f) fs c := ⟨h.sound, h.size, fun i => ⟨h.file i, h'.file i⟩⟩

lemma Shows.left (h : Shows cfg (fun c f => P c f ∧ Q c f) fs c) : Shows cfg P fs c :=
  ⟨h.sound, h.size, fun i => (h.file i).1⟩

lemma Shows.right (h : Shows cfg (fun c f => P c f ∧ Q c f) fs c) : Shows cfg Q fs c :=
  ⟨h.sound, h.size, fun i => (h.file i).2⟩

/-- What the caller of a call on a file sees. -/
lemma Shows.observe (h : OnePage cfg) (hlru : cfg.applyLruEviction = false) (hs : Holding cfg fs c)
    (hL : fs.Linked) {op : FileOp} (hop : op.Usual cfg fs) {path : Path}
    (hpath : op.path? = some path) (hi : fs.disk.ino path = some i) {res : FileRes}
    (hrun : op.run cfg fs = some (fs', res)) :
    SysOp.observe (.file op) (.file res) = match op with
      | .getattr _ => .stat (c i).length (fs.disk.nlink i)
      | .read _ _ size offset _ _ => .bytes (Bytes.slice (c i) offset size)
      | _ => .done := by
  -- a call with a result returns what the files shown say
  cases op with
  | getattr p =>
      obtain rfl := Option.some.inj hpath
      obtain ⟨fs1, st, hget, hst, -⟩ := hs.getattr hi
      obtain ⟨-, st', heq, -, hlink⟩ := hL.getattr hi hs.sound hget
      obtain rfl := StatRes.reg.inj heq
      rw [FileOp.run, hget] at hrun
      cases hrun
      rw [SysOp.observe, hst, hlink]
  | read p buf size offset fi io =>
      obtain rfl := Option.some.inj hpath
      obtain ⟨⟨j, hj, hr, hfi, hio⟩, -⟩ := hop
      obtain rfl : i = j := Option.some.inj (hi.symm.trans hj)
      obtain ⟨fs1, buf', hread, hbuf, -⟩ := hs.read_whole h hi buf hr hfi hio
      rw [FileOp.run, hread] at hrun
      cases hrun
      rw [SysOp.observe, if_pos (Int.natCast_nonneg _), Int.toNat_natCast, hbuf]
  | write p buf size offset fi io fillIo =>
      obtain rfl := Option.some.inj hpath
      obtain ⟨⟨j, hj, hr, hfi, hio, hfillIo⟩, -⟩ := hop
      obtain ⟨fs1, hwrite, -⟩ :=
        hs.sound.lfsWrite h hj buf hr.size_pos hr.end_le_word hfi hio hfillIo
        (enoughIfLru_of_off hlru _ _ _)
      rw [FileOp.run, hwrite] at hrun
      cases hrun
      rw [SysOp.observe, if_pos (writeResult_of_lt hr.size_lt)]
  | truncate p n fi io fillIo =>
      obtain ⟨⟨fs1, r⟩, -, heq⟩ := Option.map_eq_some_iff.mp hrun
      cases heq
      rfl
  | fsync p isdatasync io =>
      obtain rfl := Option.some.inj hpath
      obtain ⟨fs1, disk1, hsync, -⟩ := hs.sound.lfsFsync hi (hs.file i).bounded isdatasync io
      rw [FileOp.run, hsync] at hrun
      cases hrun
      rfl
  | clear => cases hpath

/-- **One call on a file** of which the blocks and the backing file are the contents, exactly. -/
lemma InOrder.run_fine (h : OnePage cfg) (hlru : cfg.applyLruEviction = false)
    (hs : InOrder cfg (FileView.Faithful cfg.ioBlockSize) fs c) {op : FileOp}
    (hop : op.Usual cfg fs ∧ op.Proper cfg fs ∧ op.Roomy cfg fs) :
    ∃ fs' res, op.run cfg fs = some (fs', res) ∧ Disk.SameNames fs.disk fs'.disk ∧
      (∀ i, fs'.disk.bytes i = op.synced fs.disk c fs.disk.bytes i) ∧
      InOrder cfg (FileView.Faithful cfg.ioBlockSize) fs' (op.logical fs.disk fs.disk.bytes c) := by
  have hkeeps : Keeps cfg fs c := hs.shows.left
  have hholds : Holding cfg fs c := hs.shows.right
  obtain ⟨fs', res, hrun, hnames, hholds'⟩ := hholds.run_usual h op hop.1
  obtain ⟨s', hstep, hkeeps', hdisk⟩ := CrashState.Inv.step h hlru (s := ⟨fs, c, fs.disk.bytes⟩)
    ⟨hkeeps, fun _ => rfl⟩ hop.2.1 hop.2.2
  rw [CrashState.step, hrun, Option.map_some, Option.some.injEq] at hstep
  subst hstep
  exact ⟨fs', res, hrun, hnames, hdisk,
    hs.run_file h hlru (hkeeps.own_of_proper hop.2.1) hrun hnames (hkeeps'.and hholds')⟩

end FS

namespace Refines

variable {fs fs' : FS} {s : FileSpec.State Path ℕ UInt8} {i : ℕ} {p : Path}

/-- One call on a file. -/
lemma step_file (h : OnePage cfg) (hlru : cfg.applyLruEviction = false) (hR : Refines cfg fs s)
    {op : FileOp} (hop : (SysOp.file op).Fine cfg fs) :
    ∃ fs' res, op.run cfg fs = some (fs', res) ∧
      Refines cfg fs' (FileSpec.step s (SysOp.file op).abstract).1 ∧
      (SysOp.file op).observe (.file res) = (FileSpec.step s (SysOp.file op).abstract).2 := by
  obtain ⟨c, hs, hc⟩ := hR.shows
  obtain ⟨fs', res, hrun, hnames, hdisk, hs'⟩ := hs.run_fine h hlru hop
  have hlive : ∀ {path i}, fs.disk.ino path = some i → c i = s.contents i := fun hi =>
    hc _ (Disk.nlink_pos hi)
  -- the names are the same
  have key : ∀ {s' : FileSpec.State Path ℕ UInt8}, s'.names = s.names →
      (∀ i, 0 < fs.disk.nlink i → op.logical fs.disk fs.disk.bytes c i = s'.contents i) →
      (∀ i, op.synced fs.disk c fs.disk.bytes i = s'.durable i) → Refines cfg fs' s' := by
    intro s' hn hcont hdur
    refine ⟨fun p => by rw [hn, hR.names, hnames.entries], ⟨_, hs', fun i hi => ?_⟩, fun i => ?_⟩
    · rw [hnames.nlink] at hi
      exact hcont i hi
    · rw [hdisk, hdur]
  refine ⟨fs', res, hrun, ?_⟩
  cases op with
  | getattr path =>
      obtain ⟨i, hi⟩ := hop.2.1
      have hi' : s.ino path = some i := (hR.ino path).trans hi
      rw [SysOp.abstract, FileSpec.step, FileSpec.atFile_of_ino hi',
        hs.shows.right.observe h hlru hs.linked hop.1 rfl hi hrun, hlive hi, hR.links]
      exact ⟨key rfl hc hR.durable, rfl⟩
  | read path buf size offset fi io =>
      obtain ⟨i, hi, -⟩ := hop.2.1
      have hi' : s.ino path = some i := (hR.ino path).trans hi
      rw [SysOp.abstract, FileSpec.step, FileSpec.atFile_of_ino hi',
        hs.shows.right.observe h hlru hs.linked hop.1 rfl hi hrun, hlive hi]
      exact ⟨key rfl hc hR.durable, rfl⟩
  | write path buf size offset fi io fillIo =>
      obtain ⟨i, hi, -⟩ := hop.2.1
      have hi' : s.ino path = some i := (hR.ino path).trans hi
      rw [SysOp.abstract, FileSpec.step, FileSpec.atFile_of_ino hi',
        hs.shows.right.observe h hlru hs.linked hop.1 rfl hi hrun]
      refine ⟨key rfl (fun j hj => ?_) hR.durable, rfl⟩
      rw [FileOp.logical, hi, FileSpec.State.contents_setContents]
      dsimp only
      rw [hlive hi, Function.update_apply]
      split_ifs
      · rfl
      · exact hc j hj
  | truncate path n fi io fillIo =>
      obtain ⟨i, hi, -⟩ := hop.2.1
      have hi' : s.ino path = some i := (hR.ino path).trans hi
      rw [SysOp.abstract, FileSpec.step, FileSpec.atFile_of_ino hi',
        hs.shows.right.observe h hlru hs.linked hop.1 rfl hi hrun]
      refine ⟨key rfl (fun j hj => ?_) hR.durable, rfl⟩
      rw [FileOp.logical, hi, FileSpec.State.contents_setContents]
      dsimp only
      rw [hlive hi, Function.update_apply]
      split_ifs
      · rfl
      · exact hc j hj
  | fsync path isdatasync io =>
      obtain ⟨i, hi, -⟩ := hop.2.1
      have hi' : s.ino path = some i := (hR.ino path).trans hi
      rw [SysOp.abstract, FileSpec.step, FileSpec.atFile_of_ino hi',
        hs.shows.right.observe h hlru hs.linked hop.1 rfl hi hrun]
      refine ⟨key rfl hc fun j => ?_, rfl⟩
      rw [FileOp.synced, hi]
      dsimp only
      rw [hlive hi]
      by_cases hji : j = i
      · rw [hji, Function.update_self, Function.update_self]
      · rw [Function.update_of_ne hji, Function.update_of_ne hji, hR.durable]
  | clear =>
      cases hrun
      exact ⟨key rfl (fun j _ => hR.durable j) hR.durable, rfl⟩

/-- A name of a file that has another one goes, and takes nothing away. -/
lemma forget_of_other {d : Disk} {q : Path} (c : ℕ → List UInt8) (hq : d.ino q = some i)
    (hne : q ≠ p) :
    d.forget p c i = c i := by
  rw [Disk.forget]
  cases hp : d.ino p with
  | none => rfl
  | some k =>
      dsimp only
      split_ifs with hk
      · rfl
      · rw [Function.update_of_ne]
        rintro rfl
        have hsub : ({q, p} : Finset Path) ⊆ d.names i := by
          intro r hr
          rcases Finset.mem_insert.mp hr with rfl | hr
          · exact Disk.mem_names.mpr hq
          · rw [Finset.mem_singleton.mp hr]
            exact Disk.mem_names.mpr hp
        have hcard := Finset.card_le_card hsub
        rw [Finset.card_pair hne, Disk.card_names] at hcard
        exact hk hcard

/-- One call on names. -/
lemma step_name (h : OnePage cfg) (hR : Refines cfg fs s) {op : NameOp} (hop : op.Plain fs.disk) :
    ∃ fs', op.run cfg fs = some (fs', 0) ∧
      Refines cfg fs' (FileSpec.step s (SysOp.name op).abstract).1 ∧
      (FileSpec.step s (SysOp.name op).abstract).2 = .done := by
  obtain ⟨c, hs, hc⟩ := hR.shows
  have hP : ∀ j, FileView.Faithful cfg.ioBlockSize (fs.disk.bytes j) (.bare (fs.disk.bytes j)) :=
    fun j => ⟨.bare (hs.shows.file j).1.disk_le, .bare _ _⟩
  obtain ⟨fs', hrun, hentry, hbytes, hs'⟩ := hs.run_name h hP ⟨.bare (Nat.zero_le _), .bare _ _⟩ hop
  have hlive : ∀ {q i}, fs.disk.entries.lookup q = some (.file i) → c i = s.contents i := fun hq =>
    hc _ (Disk.nlink_pos (Disk.ino_eq_some.mpr hq))
  -- names, contents under some name, and backing files are compared
  have key : ∀ {s' : FileSpec.State Path ℕ UInt8},
      (∀ q, s'.names q = (op.entry fs.disk q).map Obj.entry) →
      (∀ q i, op.entry fs.disk q = some (.file i) → op.logical fs.disk c i = s'.contents i) →
      (∀ i, op.backing fs.disk.bytes i = s'.durable i) → Refines cfg fs' s' := by
    intro s' hn hcont hdur
    refine ⟨fun p => by rw [hn, hentry], ⟨_, hs', fun i hi => ?_⟩, fun i => ?_⟩
    · rw [← Disk.card_names, Finset.card_pos] at hi
      obtain ⟨q, hq⟩ := hi
      rw [Disk.mem_names, Disk.ino_eq_some, hentry] at hq
      exact hcont q i hq
    · rw [hbytes, hdur]
  refine ⟨fs', hrun, ?_⟩
  cases op with
  | create path flags newIno now =>
      refine ⟨key (fun q => ?_) (fun q i hq => ?_) fun i => ?_, rfl⟩
      · refine (FileSpec.State.names_setName s path q _).trans ?_
        rw [NameOp.entry]
        split_ifs
        · rfl
        · exact hR.names q
      · refine Eq.trans ?_ (FileSpec.State.contents_setContents (s.setName path _) newIno i []).symm
        rw [NameOp.entry] at hq
        rw [NameOp.logical, Function.update_apply]
        by_cases hi : i = newIno
        · rw [if_pos hi, if_pos hi]
        · rw [if_neg hi, if_neg hi]
          split_ifs at hq with hqp
          · cases hq
            exact absurd rfl hi
          · exact hlive hq
      · have hdur : fs.disk.bytes = s.durable := funext hR.durable
        rw [NameOp.backing, hdur]
        rfl
  | link source dest =>
      refine ⟨key (fun q => ?_) (fun q i hq => ?_) hR.durable, rfl⟩
      · refine (FileSpec.State.names_setName s dest q _).trans ?_
        rw [NameOp.entry]
        split_ifs
        · exact hR.names source
        · exact hR.names q
      · rw [NameOp.entry] at hq
        split_ifs at hq
        · exact hlive hq
        · exact hlive hq
  | symlink path newIno =>
      refine ⟨key (fun q => ?_) (fun q i hq => ?_) hR.durable, rfl⟩
      · refine (FileSpec.State.names_setName s path q _).trans ?_
        rw [NameOp.entry]
        split_ifs
        · rfl
        · exact hR.names q
      · rw [NameOp.entry] at hq
        split_ifs at hq
        · cases hq
        · exact hlive hq
  | unlink path =>
      refine ⟨key (fun q => ?_) (fun q i hq => ?_) hR.durable, rfl⟩
      · refine (FileSpec.State.names_setName s path q _).trans ?_
        rw [NameOp.entry]
        split_ifs
        · rfl
        · exact hR.names q
      · rw [NameOp.entry] at hq
        split_ifs at hq with hqp
        rw [NameOp.logical, forget_of_other c (Disk.ino_eq_some.mpr hq) hqp]
        exact hlive hq
  | rename resolve source dest =>
      obtain ⟨k, hk, hdest⟩ := hop
      refine ⟨key (fun q => ?_) (fun q i hq => ?_) hR.durable, rfl⟩
      · refine (FileSpec.State.names_setName _ dest q _).trans ?_
        rw [FileSpec.State.names_setName, NameOp.entry]
        split_ifs
        · exact hR.names source
        · rfl
        · exact hR.names q
      · rw [NameOp.entry] at hq
        rw [NameOp.logical]
        split_ifs at hq with hqd hqs
        · -- the file that was renamed, by its old name
          rw [forget_of_other c (Disk.ino_eq_some.mpr hq) (hdest.ne hk)]
          exact hlive hq
        · rw [forget_of_other c (Disk.ino_eq_some.mpr hq) hqd]
          exact hlive hq

/-- A new mount after the process is killed. -/
lemma remount (h : OnePage cfg) (hR : Refines cfg fs s) :
    Refines cfg ⟨.new cfg, fs.disk⟩ { s with contents := s.durable } := by
  obtain ⟨c, hs, -⟩ := hR.shows
  exact ⟨hR.names, ⟨_, FS.inOrder_new h hs.wellFormed fun i =>
    ⟨.bare (hs.shows.file i).1.disk_le, .bare _ _⟩, fun i _ => hR.durable i⟩, hR.durable⟩

/-- **One call.** -/
theorem step (h : OnePage cfg) (hlru : cfg.applyLruEviction = false)
    (hR : Refines cfg fs s) {op : SysOp} (hop : op.Fine cfg fs) :
    ∃ fs' res, op.run cfg fs = some (fs', res) ∧ Refines cfg fs' (FileSpec.step s op.abstract).1 ∧
      op.observe res = (FileSpec.step s op.abstract).2 := by
  cases op with
  | file op =>
      obtain ⟨fs', res, hrun, hR', hobs⟩ := hR.step_file h hlru hop
      exact ⟨fs', .file res, by rw [SysOp.run, hrun, Option.map_some], hR', hobs⟩
  | name op =>
      obtain ⟨fs', hrun, hR', hdone⟩ := hR.step_name h hop
      exact ⟨fs', .name 0, by rw [SysOp.run, hrun, Option.map_some], hR', hdone.symm⟩
  | remount => exact ⟨_, _, rfl, hR.remount h, rfl⟩

end Refines

/-- A fresh mount. -/
lemma refines_new (h : OnePage cfg) {d : Disk} (hd : d.WellFormed)
    (hsize : ∀ i, (d.bytes i).length ≤ maxSize cfg.ioBlockSize) :
    Refines cfg ⟨.new cfg, d⟩ d.spec :=
  ⟨fun _ => rfl, ⟨d.bytes, FS.inOrder_new h hd fun i => ⟨.bare (hsize i), .bare _ _⟩,
    fun _ _ => rfl⟩, fun _ => rfl⟩

/-- **LazyFS refines the abstract file system.**  Every run of calls on files and names, of clears
and of new mounts after the process is killed, gives the callers the answers of a file system whose
contents are durable when they are synced, and ends in a state that stands for the abstract one. -/
theorem lfs_refines (h : OnePage cfg) (hlru : cfg.applyLruEviction = false) {d : Disk}
    (hd : d.WellFormed) (hsize : ∀ i, (d.bytes i).length ≤ maxSize cfg.ioBlockSize)
    {ops : List SysOp} (hops : Runs.Guarded (fun fs op => (op.run cfg fs).map Prod.fst)
      (fun fs op => op.Fine cfg fs)
      ⟨.new cfg, d⟩ ops) :
    ∃ fs results, Runs.collect (fun fs op => op.run cfg fs) ⟨.new cfg, d⟩ ops = some (fs, results) ∧
      Refines cfg fs (Runs.answers FileSpec.step d.spec (ops.map SysOp.abstract)).1 ∧
      List.zipWith SysOp.observe ops results
        = (Runs.answers FileSpec.step d.spec (ops.map SysOp.abstract)).2 :=
  Runs.collect_refines (fun _ _ _ hR hop => hR.step h hlru hop) (refines_new h hd hsize) hops

/-- A file is written and linked before the process is killed. -/
def killed : List SysOp := [.file writeAbcd, .name (.link ["f"] ["d", "h"]), .remount]

/-- The callers of these calls see the answers of the abstract file system. -/
theorem lfs_refines_killed : ∃ fs results,
    Runs.collect (fun fs op => SysOp.run (.tiny 2 false) fs op) ⟨.new (.tiny 2 false),
      FS.treeDisk⟩ killed
        = some (fs, results) ∧
      Refines (.tiny 2 false)
        fs (Runs.answers FileSpec.step FS.treeDisk.spec (killed.map SysOp.abstract)).1 ∧
      List.zipWith SysOp.observe killed results
        = (Runs.answers FileSpec.step FS.treeDisk.spec (killed.map SysOp.abstract)).2 := by
  refine lfs_refines (Config.onePage_tiny 2 false) rfl wellFormed_treeDisk (fun _ => Nat.zero_le _)
    ⟨⟨⟨⟨1, by decide +kernel, ⟨by decide, by decide, by decide, by decide⟩, ⟨rfl, rfl, rfl⟩,
      ⟨rfl, fun _ => rfl, fun _ => rfl⟩, ⟨rfl, fun _ => rfl, fun _ => rfl⟩⟩, nofun⟩,
      ⟨1, by decide +kernel, by decide, by decide, ⟨rfl, rfl, rfl⟩,
        ⟨rfl, fun _ => rfl, fun _ => rfl⟩, ⟨rfl, fun _ => rfl, fun _ => rfl⟩⟩, fun i hi => ?_⟩,
      fun fs1 h1 => ⟨?_, fun _ _ => ⟨trivial, fun _ _ => trivial⟩⟩⟩
  · have hino : FS.treeDisk.ino ["f"] = some 1 := by decide +kernel
    obtain rfl : 1 = i := Option.some.inj (hino.symm.trans hi)
    decide +kernel
  · have hdisk : (((SysOp.file writeAbcd).run (.tiny 2 false) ⟨.new (.tiny 2 false),
        FS.treeDisk⟩).map
        Prod.fst).map (fun fs => (fs.disk.ino ["f"], decide (fs.disk.Free ["d", "h"])))
        = some (some 1, true) := by decide +kernel
    dsimp only at h1
    rw [h1, Option.map_some, Option.some.injEq, Prod.mk.injEq, decide_eq_true_eq] at hdisk
    exact ⟨⟨1, hdisk.1⟩, hdisk.2⟩

end LazyFS
