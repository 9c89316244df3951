import LazyFS.Guarantees.TornOp
import LazyFS.Hooks.TornOps
import LazyFS.Support.Regex

/-!
**Torn writes and the crash that ends them.**

* `stdRegex`: `std::regex` with its ECMAScript grammar; `MatchesItself` says that a path matches the
  pattern made of it.
* `Lfs.Arms`: a crash fault after a write was armed.
* `torn_write_killed_iff`: a write that arms a crash fault is killed exactly when its path matches
  itself, or an earlier fault is met; `torn_write_served` is the file `/a+b`, where the write
  returns.
-/

namespace LazyFS

open Program Lfs

variable {cfg : Config} {rgx : Rgx} {s s' s'' : Lfs} {path : Path} {w : Write} {io : TornIo}

/-- `std::regex_match` on two strings of bytes. -/
def stdRegex : Rgx := Regex.fullMatch

namespace Path

/-- `add_crash_fault` accepts the pattern made of the path; otherwise the constructor of
`std::regex` throws, and nothing is armed. -/
def WellFormed (path : Path) : Prop := Regex.wellFormed (".*" ++ path.str ++ ".*") = true

/-- The path matches the pattern made of it. -/
def MatchesItself (path : Path) : Prop := regexMatch stdRegex path.str path.str = true

/-- No character of the path is special in a pattern, but for dots. -/
def Plain (path : Path) : Prop := ∀ c ∈ Regex.bytes path.str, Regex.Plain c

instance (path : Path) : Decidable path.Plain := List.decidableBAll _ _

end Path

/-- The list of crash faults after a write has changed. -/
def Lfs.Arms (s s' : Lfs) : Prop :=
  ∃ l l', s.crashFaultsAt "after" "write" = some l ∧ s'.crashFaultsAt "after" "write"
    = some l' ∧ l' ≠ l

lemma Lfs.Arms.known (h : Arms s s') : Known s := by
  obtain ⟨l, l', hl, -⟩ := h
  rw [Known, hl]
  rfl

lemma Lfs.Arms.torn (h : Arms s s') : s'.torn.armed ≠ s.torn.armed := by
  obtain ⟨l, l', hl, hl', hne⟩ := h
  rw [Lfs.torn, Lfs.torn, hl, hl']
  exact hne

/-- What a run of the torn writes arms is for their path. -/
lemma TornWrite.grows (h : TornWrite w io s s') :
    ∃ n, s'.torn.armed = s.torn.armed ++ List.replicate n (armedBy w.path) := by
  obtain ⟨n, hn⟩ := TornState.armed_persist s.torn w io
  obtain ⟨m, hm⟩ := h.armed
  exact ⟨n + m, by rw [hm, hn, List.replicate_add, List.append_assoc]⟩

/-- The crash fault of a path is met by a write to it when the path matches itself. -/
lemma crashFaultMet_armedBy (rgx : Rgx) (path : Path) (p : String) :
    crashFaultMet rgx "write" p "" (armedBy path) = regexMatch rgx path.str p := by
  rw [crashFaultMet, if_neg (by decide), armedBy]

/-- **One torn write** that arms a crash fault: a fault is met exactly when the path matches itself
or one was met before. -/
lemma TornWrite.hit_iff (h : TornWrite w io s s') (harms : s'.torn.armed ≠ s.torn.armed) :
    Hit rgx w.path.str s' ↔ regexMatch rgx w.path.str w.path.str = true ∨ Hit rgx w.path.str s := by
  obtain ⟨n, hn⟩ := h.grows
  have hpos : n ≠ 0 := by
    rintro rfl
    exact harms (by rw [hn, List.replicate_zero, List.append_nil])
  rw [Hit, Hit, hn, List.any_append, List.any_replicate, if_neg hpos, crashFaultMet_armedBy,
    Bool.or_eq_true]
  exact or_comm

/-- Torn writes without a crash fault that is met arm nothing for a path that matches itself. -/
lemma TornRun.quiet {l : List (Write × TornIo)} (h : TornRun rgx path.str l s s')
    (hpath : ∀ x ∈ l, x.1.path = path) (hself : regexMatch rgx path.str path.str = true) :
    s'.torn.armed = s.torn.armed := by
  induction h with
  | nil hk => rw [hk.torn_eq]
  | @cons w io l s s1 s2 s' hk hw hhit _ ih =>
      have hwp : w.path = path := hpath _ List.mem_cons_self
      rw [ih fun x hx => hpath x (List.mem_cons_of_mem _ hx)]
      by_contra hne
      have harms : s2.torn.armed ≠ s1.torn.armed := by rwa [hk.torn_eq]
      subst hwp
      exact hhit ((hw.hit_iff harms).mpr (.inl hself))

/-- The torn writes of a write are all to its path. -/
lemma path_of_mem_writeTorn (fs : FS) (buf : Mem) (size offset : ℕ) (io : WritesIo)
    (fi : Option FileInfo) : ∀ x ∈ fs.writeTorn cfg path buf size offset io fi,
      x.1.path = path := by
  have hnull : ∀ (fs : FS) (buf : Mem) (size offset : ℕ) (io : TornIo),
      ∀ x ∈ fs.nullWriteTorn path buf size offset io, x.1.path = path := by
    intro fs buf size offset io x hx
    rw [FS.nullWriteTorn] at hx
    split_ifs at hx
    · rw [List.mem_singleton.mp hx]
    · cases hx
  intro x hx
  cases fi with
  | none => exact hnull _ _ _ _ _ x hx
  | some fi =>
      rw [FS.writeTorn, List.mem_append] at hx
      rcases hx with hx | hx
      · rw [FS.holeTorn] at hx
        cases hst : fs.writeStart cfg path with
        | none =>
            rw [hst] at hx
            cases hx
        | some r =>
            rw [hst] at hx
            dsimp only at hx
            split_ifs at hx
            · cases hx
            · exact hnull _ _ _ _ _ x hx
            · cases hx
      · rw [List.mem_singleton.mp hx]

/-- **Torn writes end in a crash** exactly where the path matches itself, or a crash fault was met
before; then the write never returns.  A path without special characters but dots matches itself. -/
theorem torn_write_killed_iff (cfg : Config) {path : Path} (hwf : path.WellFormed) :
    (∀ (w : Write) (io : TornIo) (s s' : Lfs), w.path = path → tornWrites w io s = .ok ⟨⟩ s' →
      Arms s s' → (Kills stdRegex "write" "after" path.str "" s' ↔
        path.MatchesItself ∨ Hit stdRegex path.str s)) ∧
    (path.MatchesItself → ∀ (buf : Mem) (size offset : ℕ) (fi : Option FileInfo) (io : WritesIo)
      (s s' : Lfs) (r : ℤ), lfsWrite cfg stdRegex path buf size offset fi io s = .ok r s' →
      ¬ Arms s s') ∧
    (path.Plain → path.MatchesItself) := by
  refine ⟨?_, ?_, fun h => Regex.fullMatch_around h⟩
  · rintro w io s s' rfl hrun harms
    have hw := wp_of_ok (wp_tornWrites harms.known w io) hrun
    rw [Path.MatchesItself, ← hw.hit_iff harms.torn, Kills, triggerCrashFault_eq]
    obtain ⟨l, l', hl, hl', -⟩ := harms
    rw [hl', Hit, Lfs.torn, hl']
    dsimp only [Option.getD_some]
    split_ifs with h <;> simp [h]
  · intro hself buf size offset fi io s s' r hrun harms
    have h := wp_of_ok (through_write path buf size offset fi io harms.known) hrun
    exact harms.torn (h.1.quiet (path_of_mem_writeTorn _ _ _ _ _ _) hself)

/-! ### Two writes -/

/-- One empty file with a torn-op fault that keeps the second of two bytes. -/
def tornFile (name : String) : Lfs :=
  Lfs.new ⟨.new (.tiny 2 false), { oneFile with entries := Map.single [name] (.file 1) }⟩
    (Map.single (Path.str [name]) [.splitWrite secondByte])

/-- A write of two bytes to the file. -/
def writeTwo (name : String) : FaultM ℤ :=
  lfsWrite (.tiny 2 false) stdRegex [name] (Mem.ofList [97, 98]) 2 0 (some handle) {}

/-- The file `/f`, whose path is plain: the write that arms the fault is killed. -/
theorem torn_write_killed_iff_plain :
    ∃ s', tornWrites (writeAt [97, 98] 0) {} (tornFile "f") = .ok ⟨⟩ s' ∧
      Kills stdRegex "write" "after" "/f" "" s' := by
  obtain ⟨r, hr⟩ := exists_ok_of_halt? (r := tornWrites (writeAt [97, 98] 0) {} (tornFile "f"))
    (by decide +kernel)
  obtain ⟨h1, -, h3⟩ := torn_write_killed_iff (.tiny 2 false)
    (show Path.WellFormed ["f"] from (by decide +kernel : Regex.wellFormed ".*/f.*" = true))
  have harms : Arms (tornFile "f") (final (tornWrites (writeAt [97, 98] 0) {} (tornFile "f"))) :=
    ⟨[], [("/f", "none")], by decide +kernel, by decide +kernel, by decide⟩
  exact ⟨_, hr, (h1 _ {} _ _ rfl hr harms).mpr (.inl (h3 (by decide +kernel)))⟩

/-- **A torn write is served**: the pattern `/a+b` does not match the path `/a+b`, and a write that
arms its crash fault returns. -/
theorem torn_write_served :
    Path.WellFormed ["a+b"] ∧ ∃ r s', writeTwo "a+b" (tornFile "a+b") = .ok r s' ∧
      Arms (tornFile "a+b") s' := by
  obtain ⟨r, hr⟩ := exists_ok_of_halt? (r := writeTwo "a+b" (tornFile "a+b")) (by decide +kernel)
  refine ⟨show Regex.wellFormed ".*/a+b.*" = true by decide +kernel, r, _, hr, [],
    [("/a+b", "none")], by decide +kernel, by decide +kernel, by decide⟩

end LazyFS
