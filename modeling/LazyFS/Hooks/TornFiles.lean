import LazyFS.Hooks.Tearing

/-!
The backing files after a **torn write**, and the torn writes of a call.

* `Write.onto`: the bytes of a file on which some parts of a write were written; `Disk.bytes_tear`
  says that a torn write does this to its own file.
* `Lfs.Part.Inside`: a part that lies in its write; `Write.length_onto_le`: such parts do not make a
  file longer than the write would.
* `mem_writeTorn`, `mem_growTorn`: the torn writes of a call are to its path and end where it ends.
-/

namespace LazyFS

open Lfs

variable {cfg : Config} {d : Disk} {w : Write} {ps : List Part} {c : List UInt8}
  {i n : ℕ} {path : Path}

/-- The bytes of a file on which some parts of a write were written. -/
def Write.onto (w : Write) (ps : List Part) (c : List UInt8) : List UInt8 :=
  ps.foldl (fun c p => Bytes.write c p.2.2.toNat (Bytes.slice w.buf p.1.toNat p.2.1.toNat)) c

/-- The part lies in the write, and its offset is that of its first byte. -/
structure Lfs.Part.Inside (w : Write) (p : Part) : Prop where
  start : 0 ≤ p.1
  stop : p.1 + p.2.1 ≤ w.buf.length
  offset : p.2.2 = w.offset + p.1

lemma Lfs.Part.Inside.seeks {p : Part} (h : p.Inside w) : p.Seeks := by
  have hs := h.start
  have ho := h.offset
  rw [Part.Seeks]
  omega

namespace Disk

lemma tear_cons (d : Disk) (i : ℕ) (w : Write) {p : Part} (hp : p.Seeks) (ps : List Part) :
    d.tear i w (p :: ps) = (d.setBytes i (Bytes.write (d.bytes i) p.2.2.toNat
      (Bytes.slice w.buf p.1.toNat p.2.1.toNat))).tear i w ps := by
  set part := Bytes.slice w.buf p.1.toNat p.2.1.toNat with hpart
  have h : d.pwrite (some ⟨i, false, true⟩) .full part p.2.2.toNat
      = ((part.length : ℤ), d.setBytes i (Bytes.write (d.bytes i) p.2.2.toNat part)) :=
    Disk.pwrite_full d rfl part p.2.2.toNat
  rw [Int.toNat_of_nonneg hp] at h
  rw [tear, sendParts, List.map_cons, List.foldl_cons]
  dsimp only [Part.sent]
  rw [h]
  rfl

/-- **A torn write** changes its own file. -/
lemma bytes_tear (hps : ∀ p ∈ ps, p.Seeks) (d : Disk) :
    (d.tear i w ps).bytes = Function.update d.bytes i (w.onto ps (d.bytes i)) := by
  induction ps generalizing d with
  | nil => exact (Function.update_eq_self i d.bytes).symm
  | cons p ps ih =>
      rw [tear_cons d i w (hps p List.mem_cons_self) ps, ih fun q hq =>
        hps q (List.mem_cons_of_mem p hq)]
      dsimp only [setBytes]
      rw [Function.update_self, Function.update_idem]
      rfl

lemma sameNames_tear (d : Disk) (i : ℕ) (w : Write) (ps : List Part) :
    SameNames d (d.tear i w ps) := by
  rw [tear]
  generalize ps.map (Part.sent w.buf) = l
  induction l generalizing d with
  | nil => exact .refl d
  | cons p l ih => exact (sameNames_pwrite d _ _ _ _).trans (ih _)

end Disk

/-- Parts that lie in a write do not make a file longer than the write would. -/
lemma Write.length_onto_le (hc : c.length ≤ n) (hw : w.offset + w.buf.length ≤ n)
    (hps : ∀ p ∈ ps, p.Inside w) : (w.onto ps c).length ≤ n := by
  induction ps generalizing c with
  | nil => exact hc
  | cons p ps ih =>
      refine ih ?_ fun q hq => hps q (List.mem_cons_of_mem p hq)
      have hp := hps p List.mem_cons_self
      have hs := hp.start
      have he := hp.stop
      have ho := hp.offset
      dsimp only
      by_cases hnil : Bytes.slice w.buf p.1.toNat p.2.1.toNat = []
      · rw [hnil, Bytes.write_nil]
        exact hc
      · rw [Bytes.length_write _ _ hnil]
        have hlen : (Bytes.slice w.buf p.1.toNat p.2.1.toNat).length ≤ w.buf.length
            - p.1.toNat := by
          rw [Bytes.slice, List.length_take, List.length_drop]
          exact min_le_right _ _
        have hpos : 0 < (Bytes.slice w.buf p.1.toNat p.2.1.toNat).length :=
          List.length_pos_iff.mpr hnil
        omega

/-! ### The torn writes of a call -/

/-- A torn write of a call: to its path, up to where the call ends, and with one of its ends. -/
structure TornOf (path : Path) (stop : ℕ) (io : WritesIo) (x : Write × TornIo) : Prop where
  path : x.1.path = path
  stop : x.1.offset + x.1.buf.length ≤ stop
  io : x.2 = io.torn ∨ x.2 = io.fillTorn

lemma mem_nullWriteTorn {fs : FS} {buf : Mem} {size offset : ℕ} {io : TornIo} {x : Write × TornIo}
    (hx : x ∈ fs.nullWriteTorn path buf size offset io) :
    x = (⟨path, buf.read 0 size, offset⟩, io) := by
  rw [FS.nullWriteTorn] at hx
  split_ifs at hx
  · exact List.mem_singleton.mp hx
  · cases hx

lemma mem_writeTorn {fs : FS} {buf : Mem} {size offset : ℕ} {io : WritesIo} {fi : Option FileInfo}
    {x : Write × TornIo} (hx : x ∈ fs.writeTorn cfg path buf size offset io fi) :
    TornOf path (offset + size) io x := by
  cases fi with
  | none =>
      rw [mem_nullWriteTorn hx]
      exact ⟨rfl, by rw [Mem.length_read], .inl rfl⟩
  | some fi =>
      rw [FS.writeTorn, List.mem_append] at hx
      rcases hx with hx | hx
      · rw [FS.holeTorn] at hx
        cases hst : fs.writeStart cfg path with
        | none =>
            rw [hst] at hx
            cases hx
        | some r =>
            rw [hst] at hx
            dsimp only at hx
            split_ifs at hx with hd hlt
            · cases hx
            · rw [mem_nullWriteTorn hx]
              refine ⟨rfl, ?_, .inr rfl⟩
              dsimp only
              rw [Mem.length_read]
              omega
            · cases hx
      · rw [List.mem_singleton.mp hx]
        exact ⟨rfl, by rw [Mem.length_read], .inl rfl⟩

lemma mem_growTorn {fs : FS} {size : ℕ} {io : WritesIo} {fi : Option FileInfo} {x : Write × TornIo}
    (hx : x ∈ fs.growTorn cfg path size fi io) : TornOf path size io x := by
  rw [FS.growTorn] at hx
  split at hx
  · dsimp only at hx
    split_ifs at hx with hlt
    · have h := mem_writeTorn hx
      exact ⟨h.path, h.stop.trans (by omega), h.io⟩
    · cases hx
  · cases hx

end LazyFS
