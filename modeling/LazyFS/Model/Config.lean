import Mathlib.Tactic
import LazyFS.Support.Map

/-!
The configuration (`cache/config/config.hpp`), the C++ integers and the strings that name
files and cached contents.

* `Config`: the fields the cache and the file system read.  Four more fields stand for what
  C++ leaves open: the order in which an unordered container is visited, the contents of an
  uninitialised buffer and of an uninitialised `int`, and the value of `errno`.
* `OneBlock`, `OnePage`: the configurations with one block per page, of any size and of two bytes or
  more; `Config.tiny` is a small one.
* `toInt`: the conversion of a wider integer to `int`; `toInt_of_lt`, `toInt_inj`.
* `Path`: a path as the list of its components; `Path.str` is the string the code sees, and
  `Path.str_ne_inode` separates it from the decimal inode numbers that key the cache.
-/

namespace LazyFS

/-- The configuration object, with the defaults of the source. -/
structure Config where
  cacheNrPages : ℕ := 5
  cachePageSize : ℕ := 4096
  ioBlockSize : ℕ := 4096
  diskSectorSize : ℕ := 512
  applyLruEviction : Bool := false
  /-- The order in which the elements of an unordered container are visited. -/
  unordered : ∀ {α : Type}, List α → List α := fun l => l
  unordered_perm : ∀ {α : Type} (l : List α), (unordered l).Perm l := by exact fun _ => .rfl
  /-- What an uninitialised buffer holds. -/
  uninit : ℤ → UInt8 := fun _ => 0
  /-- What an uninitialised `int` holds. -/
  uninitInt : ℤ := 0
  /-- The value of `errno` that is returned after a failure. -/
  errno : ℤ := 2

/-- `CACHE_PAGE_SIZE = IO_BLOCK_SIZE`: a page holds one block. -/
structure OneBlock (cfg : Config) : Prop where
  page_eq : cfg.cachePageSize = cfg.ioBlockSize
  pos : 0 < cfg.ioBlockSize

lemma OneBlock.div_eq {cfg : Config} (h : OneBlock cfg) :
    cfg.cachePageSize / cfg.ioBlockSize = 1 := by
  rw [h.page_eq, Nat.div_self h.pos]

/-- `CACHE_PAGE_SIZE = IO_BLOCK_SIZE = B ≥ 2`. -/
structure OnePage (cfg : Config) : Prop where
  page_eq : cfg.cachePageSize = cfg.ioBlockSize
  two_le : 2 ≤ cfg.ioBlockSize

namespace OnePage

variable {cfg : Config}

lemma pos (h : OnePage cfg) : 0 < cfg.ioBlockSize := by have := h.two_le; omega

lemma oneBlock (h : OnePage cfg) : OneBlock cfg := ⟨h.page_eq, h.pos⟩

end OnePage

/-- Pages and blocks of four bytes. -/
def Config.tiny (nrPages : ℕ) (lru : Bool) : Config :=
  { cacheNrPages := nrPages, cachePageSize := 4, ioBlockSize := 4, applyLruEviction := lru }

lemma Config.onePage_tiny (nrPages : ℕ) (lru : Bool) : OnePage (.tiny nrPages lru) :=
  ⟨rfl, by simp [tiny]⟩

/-! ### `int` -/

/-- The conversion of an integer to a 32-bit `int`. -/
@[irreducible] def toInt (n : ℤ) : ℤ := Int.bmod n (2 ^ 32)

lemma toInt_of_lt {n : ℕ} (h : n < 2 ^ 31) : toInt n = n := by
  rw [toInt, Int.bmod_eq_of_le_mul_two] <;> omega

/-- The conversion is an `int`. -/
lemma toInt_lt (n : ℤ) : toInt n < 2 ^ 31 := by
  rw [toInt]
  exact Int.bmod_lt (by norm_num)

/-- The conversion of a number is no larger. -/
lemma toInt_le (n : ℕ) : toInt n ≤ n := by
  rw [toInt, Int.bmod_def]
  split <;> omega

/-- The conversion changes nothing exactly when the number fits. -/
lemma toInt_eq_iff {n : ℕ} : toInt n = n ↔ n < 2 ^ 31 := by
  constructor
  · intro h
    have hlt := toInt_lt n
    rw [h] at hlt
    exact_mod_cast hlt
  · exact toInt_of_lt

/-- A part of a sum may be converted before the sum is. -/
lemma toInt_add_toInt (m n : ℤ) : toInt (m + toInt n) = toInt (m + n) := by
  rw [toInt, toInt, toInt, Int.add_bmod_bmod]

/-- Integers less than `2^32` apart are told apart by their conversions. -/
lemma toInt_inj {m n : ℕ} (hm : m < 2 ^ 32) (hn : n < 2 ^ 32) (h : toInt m = toInt n) : m = n := by
  have h1 := congrArg (· % (2 ^ 32 : ℤ)) h
  simp only [toInt] at h1
  have h2 : ∀ k : ℤ, Int.bmod k (2 ^ 32) % 2 ^ 32 = k % 2 ^ 32 := fun k => by
    rw [show (2 : ℤ) ^ 32 = ((2 ^ 32 : ℕ) : ℤ) from by norm_num, Int.bmod_emod]
  rw [h2, h2] at h1
  omega

/-- A nonnegative conversion of a number below `2^32` changes nothing. -/
lemma toInt_of_nonneg {n : ℕ} (hn : n < 2 ^ 32) (h : 0 ≤ toInt n) : toInt n = n := by
  by_cases h31 : n < 2 ^ 31
  · exact toInt_of_lt h31
  · rw [toInt, Int.bmod_def] at h
    split at h <;> omega

/-! ### Names -/

/-- A path, as the list of its components. -/
abbrev Path := List String

/-- The string of a path. -/
def Path.str (p : Path) : String := "/" ++ "/".intercalate p

/-- The content id of a regular file: its inode number in decimal, `to_string (st_ino)`. -/
def inodeStr (ino : ℕ) : String := Nat.repr ino

lemma inodeStr_injective : Function.Injective inodeStr := by
  intro i j h
  have hd : Nat.toDigits 10 i = Nat.toDigits 10 j := by
    rw [← Nat.toList_repr, ← Nat.toList_repr]
    exact congrArg String.toList h
  rw [← Nat.ofDigitChars_ten_toDigits (n := i), hd, Nat.ofDigitChars_ten_toDigits]

/-- Every character of an inode number is a digit. -/
lemma isDigit_of_mem_inodeStr {i : ℕ} {c : Char} (h : c ∈ (inodeStr i).toList) :
    c.isDigit = true := by
  rw [inodeStr, Nat.toList_repr] at h
  exact Nat.isDigit_of_mem_toDigits (by norm_num) (by norm_num) h

lemma inodeStr_ne_empty (i : ℕ) : inodeStr i ≠ "" := Nat.repr_ne_empty

lemma inodeStr_ne_none (i : ℕ) : inodeStr i ≠ "none" := by
  intro h
  have hd : 'n'.isDigit = true := isDigit_of_mem_inodeStr (i := i) (by rw [h]; decide)
  exact absurd hd (by decide)

/-- No path is the decimal number of an inode: it starts with a slash. -/
lemma Path.str_ne_inodeStr (p : Path) (i : ℕ) : Path.str p ≠ inodeStr i := by
  intro h
  have hd : '/'.isDigit = true := by
    refine isDigit_of_mem_inodeStr (i := i) ?_
    rw [← h, Path.str, String.toList_append]
    exact List.mem_append_left _ (by decide)
  exact absurd hd (by decide)

end LazyFS
