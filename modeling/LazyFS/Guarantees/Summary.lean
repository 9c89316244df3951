import LazyFS.Model.Report
import LazyFS.Rep.Invariant

/-!
**The summary of unsynced data**.

* `ranges`: the ranges of blocks printed for an inode; `reportTurn`: one turn of the loop that
  prints them.
* `Printed`: an inode has lines in the report; `readPastEnd_reportOf`: then, and only then, an
  element past the end of its blocks is read.
* `MaximalRuns`, `Summarised`: what the report should say; `summarised_iff`: it does when no inode
  has lines and none should have.
-/

namespace LazyFS

variable {cfg : Config} {ino : String} {past : ℤ} {excl : List String} {files : String → List Path}

/-- The dirty blocks of an inode, as the engine lists them. -/
abbrev DirtyBlocks : Type := List (ℤ × (ℤ × ℤ) × ℕ)

/-- The ranges of blocks printed for an inode. -/
def ranges (ino : String) (lines : List ReportLine) : List (ℤ × ℤ) :=
  lines.filterMap fun
    | .range i a b _ _ => if i = ino then some (a, b) else none
    | _ => none

/-! ### The loop over the blocks -/

/-- One turn of the loop. -/
def reportTurn (cfg : Config) (ino : String) (past : ℤ) (s : ReportState) (block : ℤ × (ℤ × ℤ) × ℕ)
    (rest : DirtyBlocks) : ReportState :=
  let s := { (s.start block.1 block.2.1.1) with readPastEnd := s.readPastEnd || rest.isEmpty }
  (if block.1 ≠ rest.head?.elim past Prod.fst - 1 then s.endRange cfg ino block.1 block.2.1
    else s).addBytes block.2.1

lemma reportBlocks_cons (block : ℤ × (ℤ × ℤ) × ℕ) (rest : DirtyBlocks) (s : ReportState) :
    reportBlocks cfg ino past (block :: rest) s
      = reportBlocks cfg ino past rest (reportTurn cfg ino past s block rest) := by
  rw [reportBlocks, reportTurn]
  have hstart : (s.start block.1 block.2.1.1).readPastEnd = s.readPastEnd := by
    rw [ReportState.start]
    split_ifs <;> rfl
  rw [hstart]

/-- A turn prints at most one line, a range. -/
lemma reportTurn_lines (cfg : Config) (ino : String) (past : ℤ) (s : ReportState)
    (block : ℤ × (ℤ × ℤ) × ℕ) (rest : DirtyBlocks) :
    ∃ ls, (reportTurn cfg ino past s block rest).lines = s.lines ++ ls ∧
      (∀ line ∈ ls, ∃ a b x y, line = .range ino a b x y) ∧
      ranges ino ls = if block.1 ≠ rest.head?.elim past Prod.fst - 1
        then [((if s.lastBlockIndex < 0 then block.1 else s.lastBlockIndex), block.1)] else [] := by
  have hlines : (s.start block.1 block.2.1.1).lines = s.lines := by
    rw [ReportState.start]
    split_ifs <;> rfl
  have hlast : (s.start block.1 block.2.1.1).lastBlockIndex
      = if s.lastBlockIndex < 0 then block.1 else s.lastBlockIndex := by
    rw [ReportState.start]
    split_ifs <;> rfl
  rw [reportTurn]
  dsimp only
  by_cases hend : block.1 ≠ rest.head?.elim past Prod.fst - 1
  · rw [if_pos hend, if_pos hend]
    refine ⟨[(s.start block.1 block.2.1.1).rangeLine cfg ino block.1 block.2.1], ?_, ?_, ?_⟩
    · rw [← hlines]
      rfl
    · intro line hline
      rw [List.mem_singleton.mp hline]
      exact ⟨_, _, _, _, rfl⟩
    · simp [ranges, ReportState.rangeLine, hlast]
  · rw [if_neg hend, if_neg hend]
    exact ⟨[], by rw [List.append_nil, ← hlines]; rfl, fun _ h => (List.not_mem_nil h).elim, rfl⟩

lemma reportTurn_readPastEnd (s : ReportState) (block : ℤ × (ℤ × ℤ) × ℕ) (rest : DirtyBlocks) :
    (reportTurn cfg ino past s block rest).readPastEnd = (s.readPastEnd || rest.isEmpty) := by
  rw [reportTurn]
  dsimp only
  split_ifs <;> rfl

/-- The bytes of a block are added to the total. -/
lemma reportTurn_total (cfg : Config) (ino : String) (past : ℤ) (s : ReportState)
    (block : ℤ × (ℤ × ℤ) × ℕ) (rest : DirtyBlocks) :
    (reportTurn cfg ino past s block rest).totalBytesUnsynced
      = ((s.totalBytesUnsynced + (block.2.1.2 - block.2.1.1 + 1)) % 2 ^ 64).toNat := by
  have htotal : (s.start block.1 block.2.1.1).totalBytesUnsynced = s.totalBytesUnsynced := by
    rw [ReportState.start]
    split_ifs <;> rfl
  rw [← htotal, reportTurn]
  dsimp only
  split_ifs <;> rfl

/-- The lines of the loop over the blocks. -/
lemma reportBlocks_lines (cfg : Config) (ino : String) (past : ℤ) (l : DirtyBlocks)
    (s : ReportState) :
    ∃ ls, (reportBlocks cfg ino past l s).lines = s.lines ++ ls ∧
      ∀ line ∈ ls, ∃ a b x y, line = .range ino a b x y := by
  induction l generalizing s with
  | nil => exact ⟨[], (List.append_nil _).symm, fun x hx => (List.not_mem_nil hx).elim⟩
  | cons block l ih =>
      obtain ⟨ls, h1, h2, -⟩ := reportTurn_lines cfg ino past s block l
      obtain ⟨ls', h3, h4⟩ := ih (reportTurn cfg ino past s block l)
      refine ⟨ls ++ ls', ?_, fun line hline => ?_⟩
      · rw [reportBlocks_cons, h3, h1, List.append_assoc]
      · exact (List.mem_append.mp hline).elim (h2 line) (h4 line)

/-- The loop reads past the end of every list that is not empty. -/
lemma reportBlocks_readPastEnd (cfg : Config) (ino : String) (past : ℤ) (l : DirtyBlocks)
    (s : ReportState) : (reportBlocks cfg ino past l s).readPastEnd
      = (s.readPastEnd || !l.isEmpty) := by
  induction l generalizing s with
  | nil => simp [reportBlocks]
  | cons block l ih =>
      rw [reportBlocks_cons, ih, reportTurn_readPastEnd, Bool.or_assoc, Bool.or_not_self]
      rfl

/-- The bytes of some blocks. -/
def unsyncedBytes (l : DirtyBlocks) : ℤ := (l.map fun x => x.2.1.2 - x.2.1.1 + 1).sum

/-- The loop adds the bytes of the blocks to the total, a 64-bit number. -/
lemma reportBlocks_total (cfg : Config) (ino : String) (past : ℤ) (l : DirtyBlocks)
    (s : ReportState) : ((reportBlocks cfg ino past l s).totalBytesUnsynced : ℤ)
      ≡ s.totalBytesUnsynced + unsyncedBytes l [ZMOD 2 ^ 64] := by
  induction l generalizing s with
  | nil => simp [reportBlocks, unsyncedBytes]
  | cons block l ih =>
      have hturn := reportTurn_total cfg ino past s block l
      have hstep : ((reportTurn cfg ino past s block l).totalBytesUnsynced : ℤ)
          ≡ s.totalBytesUnsynced + (block.2.1.2 - block.2.1.1 + 1) [ZMOD 2 ^ 64] := by
        rw [hturn, Int.toNat_of_nonneg (Int.emod_nonneg _ (by norm_num))]
        exact Int.mod_modEq _ _
      rw [reportBlocks_cons]
      calc ((reportBlocks cfg ino past l (reportTurn cfg ino past s block l)).totalBytesUnsynced :
        ℤ)
          ≡ (reportTurn cfg ino past s block l).totalBytesUnsynced
            + unsyncedBytes l [ZMOD 2 ^ 64] := ih _
        _ ≡ s.totalBytesUnsynced + (block.2.1.2 - block.2.1.1 + 1)
          + unsyncedBytes l [ZMOD 2 ^ 64] :=
            hstep.add_right _
        _ = s.totalBytesUnsynced + unsyncedBytes (block :: l) := by
            rw [unsyncedBytes, unsyncedBytes, List.map_cons, List.sum_cons, add_assoc]

/-! ### The loop over the inodes -/

/-- The inode has lines in the report. -/
def Printed (excl : List String) (files : String → List Path)
    (r : String × ℕ × DirtyBlocks) : Prop :=
  isReported excl (files r.1) = true ∧ r.2.2 ≠ [] ∧ files r.1 ≠ []

/-- An inode that is not reported leaves the report as it is. -/
lemma reportInode_of_not {pasts : String → ℤ} {r : String × ℕ × DirtyBlocks}
    (h : ¬ Printed excl files r) (s : ReportState) : reportInode cfg excl files pasts s r = s := by
  rw [reportInode]
  dsimp only
  split_ifs with h1 h2
  · exact absurd ⟨h1, List.length_pos_iff.mp h2.1, List.length_pos_iff.mp h2.2⟩ h
  · rfl
  · rfl

/-- The list of files changes nothing but the lines. -/
lemma foldl_file (ps : List Path) (s : ReportState) :
    ps.foldl (fun s p => s.print (.file ino p)) s
      = { s with lines := s.lines ++ ps.map (ReportLine.file ino) } := by
  induction ps generalizing s with
  | nil => simp
  | cons p ps ih =>
      rw [List.foldl_cons, ih, ReportState.print]
      simp

/-- A reported inode: its heading, its ranges and its files. -/
lemma reportInode_of_printed (cfg : Config) (pasts : String → ℤ) {r : String × ℕ × DirtyBlocks}
    (h : Printed excl files r) (s : ReportState) :
    (reportInode cfg excl files pasts s r).readPastEnd = true ∧
      (∀ i, .notSynced i ∈ (reportInode cfg excl files pasts s r).lines ↔
        .notSynced i ∈ s.lines ∨ r.1 = i) ∧
      ((reportInode cfg excl files pasts s r).totalBytesUnsynced : ℤ)
        ≡ s.totalBytesUnsynced + unsyncedBytes r.2.2 [ZMOD 2 ^ 64] := by
  obtain ⟨h1, h2, h3⟩ := h
  set s0 : ReportState := { s.print (.notSynced r.1) with
    lastBlockIndex := -1, lastBlockOffStart := -1, firstBlockId := -1 } with hs0
  have heq : reportInode cfg excl files pasts s r
      = { ((reportBlocks cfg r.1 (pasts r.1) r.2.2 s0).print (.filesMapped r.1)) with
          lines := ((reportBlocks cfg r.1 (pasts r.1) r.2.2 s0).print (.filesMapped r.1)).lines
            ++ (files r.1).map (ReportLine.file r.1) } := by
    rw [← foldl_file, reportInode]
    dsimp only
    rw [if_pos h1, if_pos ⟨List.length_pos_iff.mpr h2, List.length_pos_iff.mpr h3⟩]
  obtain ⟨ls, hlines, hranges⟩ := reportBlocks_lines cfg r.1 (pasts r.1) r.2.2 s0
  have hpast := reportBlocks_readPastEnd cfg r.1 (pasts r.1) r.2.2 s0
  have hempty : r.2.2.isEmpty = false := by
    rw [List.isEmpty_eq_false_iff]
    exact h2
  rw [hempty, Bool.not_false, Bool.or_true] at hpast
  rw [heq]
  refine ⟨hpast, fun i => ?_, reportBlocks_total cfg _ _ _ s0⟩
  show .notSynced i ∈ ((reportBlocks cfg r.1 (pasts r.1) r.2.2 s0).lines ++ [.filesMapped r.1])
    ++ (files r.1).map (ReportLine.file r.1) ↔ _
  have hno : ReportLine.notSynced i ∉ ls := by
    intro hin
    obtain ⟨a, b, x, y, hx⟩ := hranges _ hin
    cases hx
  rw [hlines]
  simp [hs0, ReportState.print, hno, eq_comm]

/-- The headings and the reads of the loop over the inodes. -/
lemma reportInodes_spec (cfg : Config) (excl : List String) (files : String → List Path)
    (pasts : String → ℤ) (res : List (String × ℕ × DirtyBlocks)) (s : ReportState) :
    ((res.foldl (reportInode cfg excl files pasts) s).readPastEnd = true ↔
        s.readPastEnd = true ∨ ∃ r ∈ res, Printed excl files r) ∧
      (∀ i, .notSynced i ∈ (res.foldl (reportInode cfg excl files pasts) s).lines ↔
        .notSynced i ∈ s.lines ∨ ∃ r ∈ res, Printed excl files r ∧ r.1 = i) := by
  induction res generalizing s with
  | nil => simp
  | cons r res ih =>
      obtain ⟨ih1, ih2⟩ := ih (reportInode cfg excl files pasts s r)
      rw [List.foldl_cons]
      by_cases hr : Printed excl files r
      · obtain ⟨h1, h2, -⟩ := reportInode_of_printed cfg pasts hr s
        refine ⟨?_, fun i => ?_⟩
        · rw [ih1, h1]
          simp [hr]
        · rw [ih2, h2, List.exists_mem_cons_iff, or_assoc]
          simp [hr]
      · rw [reportInode_of_not hr] at ih1 ih2 ⊢
        refine ⟨?_, fun i => ?_⟩
        · rw [ih1, List.exists_mem_cons_iff]
          simp [hr]
        · rw [ih2, List.exists_mem_cons_iff]
          simp [hr]

/-! ### The whole report -/

/-- The runs of consecutive numbers of a list, each as long as can be, and each number in one of
them. -/
structure MaximalRuns (ids : List ℤ) (runs : List (ℤ × ℤ)) : Prop where
  within : ∀ r ∈ runs, r.1 ≤ r.2 ∧ ∀ b, r.1 ≤ b → b ≤ r.2 → b ∈ ids
  maximal : ∀ r ∈ runs, r.1 - 1 ∉ ids ∧ r.2 + 1 ∉ ids
  once : ∀ b ∈ ids, (runs.filter fun r => r.1 ≤ b ∧ b ≤ r.2).length = 1

/-- The report is about the inodes with files none of which is excluded: their runs of blocks, and
their total. -/
structure Summarised (excl : List String) (files : String → List Path)
    (res : List (String × ℕ × DirtyBlocks)) (out : ReportState) : Prop where
  reported : ∀ i, .notSynced i ∈ out.lines ↔
    (∃ r ∈ res, r.1 = i) ∧ files i ≠ [] ∧ ∀ p ∈ files i, p.str ∉ excl
  runs : ∀ r ∈ res, .notSynced r.1 ∈ out.lines →
    MaximalRuns (r.2.2.map Prod.fst) (ranges r.1 out.lines)
  inBounds : out.readPastEnd = false
  total : ∀ n : ℕ, .total n ∈ out.lines →
    (n : ℤ) = ((res.filter fun r => .notSynced r.1 ∈ out.lines).map fun r =>
      unsyncedBytes r.2.2).sum

/-- An inode is reported when nothing is excluded, or one of its files is. -/
lemma isReported_iff (ps : List Path) :
    isReported excl ps = true ↔ excl = [] ∨ ∃ p ∈ ps, p.str ∈ excl := by
  rw [isReported]
  cases excl with
  | nil => simp
  | cons e excl => simp

/-- The headings and the reads of the report. -/
lemma reportOf_spec (cfg : Config) (excl : List String) (files : String → List Path)
    (pasts : String → ℤ) (res : List (String × ℕ × DirtyBlocks)) :
    ((reportOf cfg excl files pasts res).readPastEnd = true ↔ ∃ r ∈ res, Printed excl files r) ∧
      ∀ i, .notSynced i ∈ (reportOf cfg excl files pasts res).lines ↔
        ∃ r ∈ res, Printed excl files r ∧ r.1 = i := by
  obtain ⟨h1, h2⟩ := reportInodes_spec cfg excl files pasts res ⟨[], 0, -1, -1, -1, false⟩
  rw [reportOf]
  dsimp only
  split_ifs with hempty hexcl
  · rw [List.isEmpty_iff.mp hempty]
    simp [ReportState.print]
  · refine ⟨?_, fun i => ?_⟩
    · simpa [ReportState.print] using h1
    · simpa [ReportState.print] using h2 i
  · refine ⟨?_, fun i => ?_⟩
    · simpa [ReportState.print] using h1
    · simpa [ReportState.print] using h2 i

/-- A report without headings says that nothing is unsynced, or that the total is zero. -/
lemma reportOf_silent (cfg : Config) (pasts : String → ℤ) {res : List (String × ℕ × DirtyBlocks)}
    (hno : ∀ r ∈ res, ¬ Printed excl files r) {n : ℕ}
    (hn : .total n ∈ (reportOf cfg excl files pasts res).lines) : n = 0 := by
  have hfold : ∀ s, res.foldl (reportInode cfg excl files pasts) s = s := by
    intro s
    clear hn
    induction res generalizing s with
    | nil => rfl
    | cons r res ih =>
        rw [List.foldl_cons, reportInode_of_not (hno r List.mem_cons_self)]
        exact ih (fun r hr => hno r (List.mem_cons_of_mem _ hr)) s
  rw [reportOf, hfold] at hn
  dsimp only at hn
  split_ifs at hn
  · simp [ReportState.print] at hn
  · simpa [ReportState.print] using hn
  · simpa [ReportState.print] using hn

/-- **The summary is right** exactly when every inode of the result has no file, or has no block and
an excluded file. -/
theorem summarised_iff {c : Cache} {res : List (String × ℕ × DirtyBlocks)}
    (hres : c.reportUnsyncedData cfg = some res) (excl : List String) (pasts : String → ℤ) :
    (∃ out, c.commandUnsyncedDataReport cfg excl pasts = some out ∧
      Summarised excl (c.findFilesMappedToInode cfg) res out) ↔
    ∀ r ∈ res, c.findFilesMappedToInode cfg r.1 = [] ∨
      r.2.2 = [] ∧ ∃ p ∈ c.findFilesMappedToInode cfg r.1, p.str ∈ excl := by
  set files := c.findFilesMappedToInode cfg with hfiles
  have hout : c.commandUnsyncedDataReport cfg excl pasts
      = some (reportOf cfg excl files pasts res) := by
    rw [Cache.commandUnsyncedDataReport, hres, Option.map_some]
  obtain ⟨hpast, hheads⟩ := reportOf_spec cfg excl files pasts res
  constructor
  · rintro ⟨out, hout', hS⟩ r hr
    rw [hout, Option.some.injEq] at hout'
    subst hout'
    -- a heading comes with a read past the end
    have hsilent : ∀ r ∈ res, ¬ Printed excl files r := fun r hr hP => by
      have h1 := hpast.mpr ⟨r, hr, hP⟩
      rw [hS.inBounds] at h1
      cases h1
    by_contra hbad
    rw [not_or] at hbad
    have hnohead : .notSynced r.1 ∉ (reportOf cfg excl files pasts res).lines := by
      rw [hheads]
      rintro ⟨r', hr', hP, -⟩
      exact hsilent r' hr' hP
    rw [hS.reported] at hnohead
    have hexcl : ∃ p ∈ files r.1, p.str ∈ excl := by
      by_contra hno
      exact hnohead ⟨⟨r, hr, rfl⟩, hbad.1, fun p hp hin => hno ⟨p, hp, hin⟩⟩
    refine hsilent r hr ⟨(isReported_iff _).mpr (.inr hexcl),
      fun hnil => hbad.2 ⟨hnil, hexcl⟩, hbad.1⟩
  · intro hgood
    have hsilent : ∀ r ∈ res, ¬ Printed excl files r := fun r hr hP =>
      (hgood r hr).elim (fun h => hP.2.2 h) fun h => hP.2.1 h.1
    have hnohead : ∀ i, .notSynced i ∉ (reportOf cfg excl files pasts res).lines := by
      intro i
      rw [hheads]
      rintro ⟨r, hr, hP, -⟩
      exact hsilent r hr hP
    refine ⟨_, hout, fun i => iff_of_false (hnohead i) ?_,
      fun r hr hin => absurd hin (hnohead r.1), ?_,
      fun n hn => ?_⟩
    · rintro ⟨⟨r, hr, rfl⟩, h1, h2⟩
      rcases hgood r hr with h3 | ⟨-, p, hp, hin⟩
      · exact h1 h3
      · exact h2 p hp hin
    · rw [Bool.eq_false_iff]
      intro hc
      obtain ⟨r, hr, hP⟩ := hpast.mp hc
      exact hsilent r hr hP
    · rw [reportOf_silent cfg pasts hsilent hn, List.filter_eq_nil_iff.mpr fun r _ => by
        simpa using hnohead r.1]
      rfl

/-- Two unsynced blocks, with a gap, of one file. -/
def gapFile : Option (Cache × Disk) :=
  Runs.run (CacheOp.run (.tiny 2 false)) (Cache.new (.tiny 2 false), Disk.empty)
    [.putDataBlocks "7" ((Map.single 0 ⟨fun _ => 1, 4, 0, 3⟩).set 2 ⟨fun _ => 2, 4, 0, 3⟩) .opWrite,
      .insertInodeMapping ["a"] "7" false]

/-- An inode without files needs no report. -/
theorem summarised_iff_unmapped : ∃ c d res,
    Runs.run (CacheOp.run (.tiny 2 false)) (Cache.new (.tiny 2 false), Disk.empty)
      [.putDataBlocks "7" (Map.single 0 ⟨fun _ => 1, 4, 0, 3⟩) .opWrite] = some (c, d) ∧
    c.reportUnsyncedData (.tiny 2 false) = some res ∧ res.length = 1 ∧
    ∃ out, c.commandUnsyncedDataReport (.tiny 2 false) [] (fun _ => 0) = some out ∧
      Summarised [] (c.findFilesMappedToInode (.tiny 2 false)) res out := by
  have hrun : ((Runs.run (CacheOp.run (.tiny 2 false)) (Cache.new (.tiny 2 false), Disk.empty)
      [.putDataBlocks "7" (Map.single 0 ⟨fun _ => 1, 4, 0, 3⟩) .opWrite]).bind fun s =>
      (s.1.reportUnsyncedData (.tiny 2 false)).map fun res => (res.length, res.map fun r =>
        s.1.findFilesMappedToInode (.tiny 2 false) r.1)) = some (1, [[]]) := by decide +kernel
  obtain ⟨⟨c, d⟩, hs, hres⟩ := Option.bind_eq_some_iff.mp hrun
  obtain ⟨res, hres, heq⟩ := Option.map_eq_some_iff.mp hres
  obtain ⟨hlen, hfiles⟩ := Prod.mk.inj heq
  refine ⟨c, d, res, hs, hres, hlen, (summarised_iff hres [] fun _ => 0).mpr fun r hr => .inl ?_⟩
  have hmem : c.findFilesMappedToInode (.tiny 2 false) r.1 ∈ [([] : List Path)] := by
    rw [← hfiles]
    exact List.mem_map.mpr ⟨r, hr, rfl⟩
  exact List.mem_singleton.mp hmem

/-- **The report of a file with two blocks** reads past the end of its blocks and prints the second
range from the first block on; with another file excluded the report does not name it. -/
theorem summary_of_gapFile : ∃ c d res out out', gapFile = some (c, d) ∧
    c.reportUnsyncedData (.tiny 2 false) = some res ∧
    c.commandUnsyncedDataReport (.tiny 2 false) [] (fun _ => 0) = some out ∧
    c.commandUnsyncedDataReport (.tiny 2 false) ["/b"] (fun _ => 0) = some out' ∧
    out.readPastEnd = true ∧ ranges "7" out.lines = [(0, 0), (0, 2)] ∧
    .notSynced "7" ∉ out'.lines ∧ ¬ Summarised []
    (c.findFilesMappedToInode (.tiny 2 false)) res out := by
  have hrun : (gapFile.bind fun s => (s.1.reportUnsyncedData (.tiny 2 false)).bind fun _ =>
      (s.1.commandUnsyncedDataReport (.tiny 2 false) [] fun _ => 0).bind fun out =>
      (s.1.commandUnsyncedDataReport (.tiny 2 false) ["/b"] fun _ => 0).map fun out' =>
        (out.readPastEnd, ranges "7" out.lines, out'.lines.contains (.notSynced "7")))
      = some (true, [(0, 0), (0, 2)], false) := by decide +kernel
  obtain ⟨⟨c, d⟩, hs, h⟩ := Option.bind_eq_some_iff.mp hrun
  obtain ⟨res, hres, h⟩ := Option.bind_eq_some_iff.mp h
  obtain ⟨out, hout, h⟩ := Option.bind_eq_some_iff.mp h
  obtain ⟨out', hout', h⟩ := Option.map_eq_some_iff.mp h
  simp only [Prod.mk.injEq] at h
  refine ⟨c, d, res, out, out', hs, hres, hout, hout', h.1, h.2.1, ?_, fun hS => ?_⟩
  · simpa using h.2.2
  · have h1 := hS.inBounds
    rw [h.1] at h1
    cases h1

end LazyFS
