import LazyFS.Hooks.Torn

/-!
What `split_write` sends.

* `Part.sent`: the bytes of a part with their offset; `attempted`: the parts up to the first one at
  a negative offset; `Disk.sendParts`: a backing file after some parts.
* `Tears`: a triggered torn-op fault sends parts and arms a crash fault or not.
* `wp_splitWrite_due`: what becomes of a write that triggers the fault of its path.
-/

namespace LazyFS

open Program

/-- Some bytes and the offset at which they are written. -/
abbrev Sent := List UInt8 × ℤ

/-- The backing files after some bytes were written through a descriptor. -/
def Disk.sendParts (d : Disk) (fd : Fd) (l : List Sent) : Disk :=
  l.foldl (fun d p => (d.pwrite (some fd) .full p.1 p.2).2) d

namespace Lfs

/-- The bytes of a part. -/
def Part.sent (buf : List UInt8) (p : Part) : Sent := (Bytes.slice buf p.1.toNat p.2.1.toNat, p.2.2)

/-- The part is not at a negative offset. -/
def Part.Seeks (p : Part) : Prop := 0 ≤ p.2.2

instance (p : Part) : Decidable p.Seeks := inferInstanceAs (Decidable (_ ≤ _))

/-- The parts that the loop comes to: it stops after the first one that cannot be written. -/
def attempted : List Part → List Part
  | [] => []
  | p :: l => p :: if p.Seeks then attempted l else []

lemma attempted_of_seeks {l : List Part} (h : ∀ p ∈ l, p.Seeks) : attempted l = l := by
  induction l with
  | nil => rfl
  | cons p l ih =>
      rw [attempted, if_pos (h p List.mem_cons_self), ih fun q hq =>
        h q (List.mem_cons_of_mem p hq)]

variable {s s' : Lfs} {w : Write} {io : TornIo} {f : SplitWriteF} {l : List SplitWriteF}

/-- The loop, when no backing call fails by itself. -/
lemma wp_writeParts_full {fd : Fd} (hfd : fd.writable = true) (hio : ∀ k, io.partPwrite k = .full)
    (buf : List UInt8) (ps : List Part) : ∀ (k : ℕ) (s : Lfs),
    wp (writeParts (some fd) buf io ps k)
      (fun r s' => (r = true ↔ ∀ p ∈ ps, p.Seeks) ∧ s' = { s with
        fs := { s.fs with disk := s.fs.disk.sendParts fd ((attempted ps).map (Part.sent buf)) }
        parts := ((attempted ps).map (Part.sent buf)).reverse ++ s.parts })
        (fun _ _ => False) s := by
  induction ps with
  | nil => exact fun k s => ⟨by simp, rfl⟩
  | cons p ps ih =>
      intro k s
      obtain ⟨bufI, len, off⟩ := p
      set part := Bytes.slice buf bufI.toNat len.toNat with hpart
      have hsent : Part.sent buf (bufI, len, off) = (part, off) := rfl
      rw [writeParts, wp_bind, wp_modify, wp_bind, backingPwrite, wp_bind, wp_get,
        wp_bind, wp_modify, wp_pure, hio k]
      by_cases hoff : 0 ≤ off
      · -- the part is written
        have hpw : s.fs.disk.pwrite (some fd) .full part off
            = ((part.length : ℤ), s.fs.disk.setBytes fd.ino
              (Bytes.write (s.fs.disk.bytes fd.ino) off.toNat part)) := by
          have h := Disk.pwrite_full s.fs.disk hfd part off.toNat
          rwa [Int.toNat_of_nonneg hoff] at h
        have hseeks : Part.Seeks (bufI, len, off) := hoff
        dsimp only
        rw [hpw, decide_eq_true rfl, if_pos rfl]
        refine wp_mono (ih (k + 1) _) ?_ fun _ _ he => he
        rintro r s' ⟨hr, rfl⟩
        refine ⟨?_, ?_⟩
        · rw [hr]
          simp [hseeks]
        · rw [attempted, if_pos hseeks, List.map_cons, hsent, List.reverse_cons, List.append_assoc,
            Disk.sendParts, Disk.sendParts, List.foldl_cons, hpw]
          rfl
      · -- a negative offset fails, and the loop stops
        have hpw : s.fs.disk.pwrite (some fd) .full part off = (-1, s.fs.disk) := by
          rw [Disk.pwrite, if_neg fun h => hoff h.2]
        have hseeks : ¬ Part.Seeks (bufI, len, off) := hoff
        have hlen : ¬ (-1 : ℤ) = part.length := by omega
        dsimp only
        rw [hpw, decide_eq_false hlen, if_neg Bool.false_ne_true]
        refine ⟨?_, ?_⟩
        · simp [hseeks]
        · rw [attempted, if_neg hseeks, List.map_cons, hsent, List.map_nil, List.reverse_singleton,
            Disk.sendParts, List.foldl_cons, List.foldl_nil, hpw]
          rfl

/-- An armed crash fault leaves the parts alone. -/
lemma wp_addCrashFault (hk : (s.crashFaultsAt "after" "write").isSome) {fromRgx toRgx : String} :
    wp (addCrashFault "after" "write" fromRgx toRgx) (fun _ s' => s'.parts = s.parts)
      (fun _ _ => False) s := by
  rw [wp, addCrashFault_eq hk]
  exact parts_arm

/-! ### A write that triggers its fault -/

/-- The torn-op fault of the path of a write is due at it, and no backing call of `split_write`
fails by itself: the file is opened or created as `fd`, which leaves `d`. -/
structure Due (f : SplitWriteF) (w : Write) (io : TornIo) (d : Disk) (fd : Fd)
    (s : Lfs) : Prop where
  first : (splitsOf s.faults w.path.str).head? = some f
  due : f.counter + 1 = f.occurrence
  opens : s.fs.disk.create w.path { readable := false, writable := true } io.newIno io.now
    = some (d, fd)
  full : ∀ k, io.partPwrite k = .full
  known : (s.crashFaultsAt "after" "write").isSome

/-- `split_write` sent some bytes and armed a crash fault or not. -/
structure Tears (w : Write) (d : Disk) (fd : Fd) (sent : List Sent) (crash : Bool)
    (s s' : Lfs) : Prop where
  parts : s'.parts = sent.reverse ++ s.parts
  disk : s'.fs.disk = d.sendParts fd sent
  armed : s'.torn.armed = s.torn.armed ++ if crash then [armedBy w.path] else []

lemma writable_of_create {d d' : Disk} {p : Path} {newIno : ℕ} {now : Timespec} {fd : Fd}
    (h : d.create p { readable := false, writable := true } newIno now = some (d', fd)) :
    fd.writable = true := by
  rw [Disk.create] at h
  split at h
  · simp only [Bool.false_eq_true, if_false, Option.some.injEq, Prod.mk.injEq] at h
    rw [← h.2]
  · cases h
  · split_ifs at h
    simp only [Option.some.injEq, Prod.mk.injEq] at h
    rw [← h.2]

/-- **A write that triggers the fault of its path**: nothing is sent where the parts do not add up;
otherwise the parts up to the first one at a negative offset are, and a crash fault is armed if
there is none. -/
theorem wp_splitWrite_due {d : Disk} {fd : Fd} (h : Due f w io d fd s) :
    wp (splitWrite w io)
      (fun r s' => (splitParts { f with counter := f.counter + 1 } w.buf.length w.offset = none →
          r = false ∧ Tears w d fd [] false s s') ∧
        ∀ ps, splitParts { f with counter := f.counter + 1 } w.buf.length w.offset = some ps →
          (r = true ↔ ∀ p ∈ ps, p.Seeks) ∧
          Tears w d fd ((attempted ps).map (Part.sent w.buf)) r s s') (fun _ _ => False) s := by
  rw [splitWrite, wp_bind, wp_modify, wp_bind, wp_get]
  -- the counter reaches the occurrence
  set s1 : Lfs := { s with
    faults := mapFaults s.faults w.path.str
      (mapFirstSplit fun f => { f with counter := f.counter + 1 }) } with hs1
  have hfirst : firstSplit (faultsOf s1.faults w.path.str)
      = some { f with counter := f.counter + 1 } := by
    have hsplits : splitsOf s1.faults w.path.str
        = mapHead (fun f => { f with counter := f.counter + 1 })
          (splitsOf s.faults w.path.str) := by
      rw [hs1, splitsOf_mapFaults s.faults w.path.str split?_mapFirstSplit rfl,
        Function.update_self]
    have hhead := h.first
    rw [firstSplit_eq]
    change (splitsOf s1.faults w.path.str).head? = _
    rw [hsplits]
    cases hl : splitsOf s.faults w.path.str with
    | nil =>
        rw [hl] at hhead
        cases hhead
    | cons f' l =>
        rw [hl, List.head?_cons, Option.some.injEq] at hhead
        rw [hhead]
        rfl
  rw [hfirst]
  dsimp only
  rw [if_pos h.due, wp_bind, openCreat, wp_bind, wp_get]
  -- the file is opened
  have hopens : s1.fs.disk.create w.path { readable := false, writable := true } io.newIno io.now
      = some (d, fd) := h.opens
  rw [hopens]
  dsimp only
  rw [wp_bind, wp_modify, wp_pure]
  set s2 : Lfs := { s1 with fs := { s1.fs with disk := d } } with hs2
  have harmed : s2.torn.armed = s.torn.armed := rfl
  cases splitParts { f with counter := f.counter + 1 } w.buf.length w.offset with
  -- the parts do not add up
  | none =>
      refine ⟨fun _ => ⟨rfl, rfl, rfl, ?_⟩, fun ps hps => by cases hps⟩
      rw [harmed]
      exact (List.append_nil _).symm
  | some ps =>
      dsimp only
      rw [wp_bind]
      -- the parts are written up to the first that cannot be, and only all of them arm the fault
      refine wp_mono (wp_writeParts_full (writable_of_create h.opens) h.full w.buf ps 0 s2) ?_
        fun _ _ he => he
      rintro r s3 ⟨hr, rfl⟩
      cases r with
      | false =>
          rw [if_neg Bool.false_ne_true, wp_pure]
          refine ⟨fun hn => (by cases hn), fun ps' hps => ?_⟩
          rw [Option.some.injEq] at hps
          subst hps
          refine ⟨hr, rfl, rfl, ?_⟩
          exact (List.append_nil _).symm
      | true =>
          rw [if_pos rfl, wp_bind]
          set s3 : Lfs := { s2 with
            fs := { s2.fs with
              disk := s2.fs.disk.sendParts fd ((attempted ps).map (Part.sent w.buf)) }
            parts := ((attempted ps).map (Part.sent w.buf)).reverse ++ s2.parts } with hs3
          have hk : (s3.crashFaultsAt "after" "write").isSome := h.known
          refine wp_mono (wp_and (moves_addCrashFault hk w.path) (wp_addCrashFault hk)) ?_
            fun _ _ he => he.1
          rintro u s4 ⟨⟨-, ht, -, -⟩, hparts⟩
          rw [wp_pure]
          refine ⟨fun hn => (by cases hn), fun ps' hps => ?_⟩
          rw [Option.some.injEq] at hps
          subst hps
          refine ⟨hr, ?_, ?_, ?_⟩
          · rw [hparts]
          · rw [show s4.fs.disk = s4.torn.disk from rfl, ht]
            rfl
          · rw [ht]
            rfl

end Lfs

end LazyFS
