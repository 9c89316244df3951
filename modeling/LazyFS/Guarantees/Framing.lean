import Mathlib.Data.List.TakeWhile
import LazyFS.Model.Worker

/-!
**Framing**: the commands written to the FIFO, against those the worker acts on.

* `Lines.stream`: the bytes of a list of lines; `Delivery`: the ways in which the `read` calls of
  the worker can return them.
* `actedOn`: the strings that the worker gets out of its reads.
* `actedOn_eq_iff`: these are the lines exactly when every read returns one line.
* `two_commands_in_one_read`: two commands that arrive together are one unknown command.
-/

namespace LazyFS

/-- The line break that ends a command. -/
def newline : Char := Char.ofNat 10

/-- The bytes that are written for a list of lines. -/
def stream (lines : List (List Char)) : List Char := (lines.map (· ++ [newline])).flatten

/-- The reads return the bytes in order, each of them at least one byte and no more than the buffer
holds. -/
structure Delivery (bytes : List Char) (reads : List (List Char)) : Prop where
  whole : reads.flatten = bytes
  some : ∀ chunk ∈ reads, chunk ≠ []
  fits : ∀ chunk ∈ reads, chunk.length ≤ maxReadChunk

/-- The strings that the worker acts on. -/
def actedOn (reads : List (List Char)) : List (List Char) := reads.map bufferString

/-- Every read returns one line with its line break, and no line holds the byte that ends a
string. -/
def LineByLine (lines reads : List (List Char)) : Prop :=
  reads = lines.map (· ++ [newline]) ∧ ∀ line ∈ lines, nul ∉ line

variable {lines reads : List (List Char)} {line chunk : List Char}

lemma takeWhile_ne_nul : line.takeWhile (· ≠ nul) = line ↔ nul ∉ line := by
  rw [List.takeWhile_eq_self_iff]
  constructor
  · intro h hmem
    simpa using h nul hmem
  · intro h c hc
    rw [decide_eq_true_eq]
    rintro rfl
    exact h hc

/-- A line that arrives alone. -/
lemma bufferString_line (h : nul ∉ line) : bufferString (line ++ [newline]) = line := by
  rw [bufferString, List.dropLast_concat]
  exact takeWhile_ne_nul.mpr h

/-- The string of a read is shorter than the read. -/
lemma length_bufferString_lt (h : chunk ≠ []) : (bufferString chunk).length < chunk.length := by
  have hle : (bufferString chunk).length ≤ chunk.dropLast.length :=
    (List.takeWhile_prefix _).length_le
  have hpos := List.length_pos_of_ne_nil h
  rw [List.length_dropLast] at hle
  omega

/-- A read whose string has the longest length possible. -/
lemma bufferString_eq_dropLast (h : chunk ≠ [])
    (hlen : chunk.length ≤ (bufferString chunk).length + 1) :
    bufferString chunk = chunk.dropLast := by
  refine (List.takeWhile_prefix _).eq_of_length_le ?_
  rw [List.length_dropLast]
  have := List.length_pos_of_ne_nil h
  rw [bufferString] at hlen
  omega

/-- The bytes of the reads are at least those of the strings, with one byte more for each. -/
lemma length_stream_actedOn_le (h : ∀ chunk ∈ reads, chunk ≠ []) :
    (stream (actedOn reads)).length ≤ reads.flatten.length := by
  induction reads with
  | nil => exact Nat.le_refl _
  | cons chunk reads ih =>
      have hrest := ih fun c hc => h c (List.mem_cons_of_mem _ hc)
      have hlt := length_bufferString_lt (h chunk List.mem_cons_self)
      rw [stream, actedOn, List.map_cons, List.map_cons, List.flatten_cons, List.length_append,
        List.length_append, List.flatten_cons, List.length_append, List.length_singleton]
      exact Nat.add_le_add hlt hrest

/-- **The step**: where the strings are as long as the reads allow, every read is its string and one
byte, which is the line break when the bytes are those of the strings. -/
lemma reads_eq_of_stream (h : ∀ chunk ∈ reads, chunk ≠ [])
    (hs : reads.flatten = stream (actedOn reads)) :
    reads = (actedOn reads).map (· ++ [newline]) ∧ ∀ line ∈ actedOn reads, nul ∉ line := by
  induction reads with
  | nil => exact ⟨rfl, by simp [actedOn]⟩
  | cons chunk reads ih =>
      have hne := h chunk List.mem_cons_self
      have hrest := fun c hc => h c (List.mem_cons_of_mem chunk hc)
      have hlt := length_bufferString_lt hne
      have hle := length_stream_actedOn_le hrest
      have hcons : stream (actedOn (chunk :: reads))
          = (bufferString chunk ++ [newline]) ++ stream (actedOn reads) := rfl
      rw [hcons, List.flatten_cons] at hs
      have hlen := congrArg List.length hs
      rw [List.length_append, List.length_append, List.length_append, List.length_singleton] at hlen
      obtain ⟨hchunk, htail⟩ := List.append_inj hs (by
        rw [List.length_append, List.length_singleton]
        omega)
      obtain ⟨hreads, hnul⟩ := ih hrest htail
      have hdrop : bufferString chunk = chunk.dropLast := bufferString_eq_dropLast hne (by omega)
      refine ⟨?_, ?_⟩
      · rw [actedOn, List.map_cons, List.map_cons, ← hchunk, ← actedOn, ← hreads]
      · intro line hline
        rw [actedOn, List.map_cons, List.mem_cons] at hline
        rcases hline with rfl | hline
        · intro hmem
          exact absurd (List.mem_takeWhile_imp hmem) (by simp)
        · exact hnul line hline

/-- **Framing**: the worker acts on exactly the lines written, in order, each once and complete,
exactly when every read returns one line. -/
theorem actedOn_eq_iff (h : Delivery (stream lines) reads) :
    actedOn reads = lines ↔ LineByLine lines reads := by
  constructor
  · intro hl
    have hs : reads.flatten = stream (actedOn reads) := by rw [hl, h.whole]
    have hboth := reads_eq_of_stream h.some hs
    rwa [hl] at hboth
  · rintro ⟨rfl, hnul⟩
    rw [actedOn, List.map_map]
    conv_rhs => rw [← List.map_id lines]
    exact List.map_congr_left fun line hline => bufferString_line (hnul line hline)

/-- Two commands that arrive one after the other. -/
theorem actedOn_eq_iff_help :
    actedOn ["lazyfs::help\n".toList, "lazyfs::clear-cache\n".toList]
        = ["lazyfs::help".toList, "lazyfs::clear-cache".toList] ↔
      LineByLine ["lazyfs::help".toList, "lazyfs::clear-cache".toList]
        ["lazyfs::help\n".toList, "lazyfs::clear-cache\n".toList] :=
  actedOn_eq_iff ⟨by decide +kernel, by decide +kernel, by decide +kernel⟩

/-- **Two commands in one read** are one command that the worker does not know: nothing is
cleared. -/
theorem two_commands_in_one_read :
    Delivery (stream ["lazyfs::clear-cache".toList, "lazyfs::clear-cache".toList])
        ["lazyfs::clear-cache\nlazyfs::clear-cache\n".toList] ∧
      actedOn ["lazyfs::clear-cache\nlazyfs::clear-cache\n".toList]
        ≠ ["lazyfs::clear-cache".toList, "lazyfs::clear-cache".toList] ∧
      ∀ cfg io s, Lfs.fhtWorker cfg io ["lazyfs::clear-cache\nlazyfs::clear-cache\n".toList] s
        = .ok ⟨⟩ s := by
  refine ⟨⟨by decide +kernel, by decide +kernel, by decide +kernel⟩, by decide +kernel, ?_⟩
  exact fun cfg io s => rfl

end LazyFS
