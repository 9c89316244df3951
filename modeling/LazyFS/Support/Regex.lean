import Mathlib.Tactic

/-!
**Regular expressions** in the ECMAScript grammar of `std::regex`, on the bytes of a string.

* `Regex`: the syntax trees; `Regex.run` is the backtracking matcher of the ECMAScript standard,
  which takes what is left to match as a continuation.
* `Regex.step`: the scanner, one character at a time; `Regex.parse` is the parser over its tokens,
  `none` for a pattern that is not well formed.
* `Regex.fullMatch`: a whole string against a pattern.
* `fullMatch_around`: a pattern without special characters but dots, between `".*"` on both sides,
  matches itself.
-/

/-- Regular expressions. -/
inductive Regex where
  | empty
  | set (p : Char → Bool)
  | seq (r s : Regex)
  | alt (r s : Regex)
  | group (n : ℕ) (r : Regex)
  | loop (min : ℕ) (max : Option ℕ) (greedy : Bool) (r : Regex)
  | lineBegin
  | lineEnd
  | wordBound (neg : Bool)
  | look (neg : Bool) (r : Regex)
  | backref (n : ℕ)

namespace Regex

/-! ### The matcher -/

/-- Where a match stands: the characters before it, the last one first, those after it, and what the
groups have captured. -/
structure State where
  before : List Char
  rest : List Char
  caps : List (ℕ × List Char)

/-- The numbers of the groups in an expression. -/
def groups : Regex → List ℕ
  | seq r s | alt r s => r.groups ++ s.groups
  | group n r => n :: r.groups
  | loop _ _ _ r | look _ r => r.groups
  | _ => []

def isDigit (c : Char) : Bool := '0' ≤ c ∧ c ≤ '9'

def isUpper (c : Char) : Bool := 'A' ≤ c ∧ c ≤ 'Z'

def isLower (c : Char) : Bool := 'a' ≤ c ∧ c ≤ 'z'

def isAlnum (c : Char) : Bool := isDigit c || isUpper c || isLower c

def isWord (c : Char) : Bool := isAlnum c || c = '_'

def isSpace (c : Char) : Bool := c = ' ' ∨ '\t' ≤ c ∧ c ≤ '\r'

namespace State

/-- The next character is taken. -/
def advance (st : State) : Option (Char × State) :=
  match st.rest with
  | [] => none
  | c :: rest => some (c, { st with before := c :: st.before, rest := rest })

/-- The next characters are `l`. -/
def advanceAll (st : State) : List Char → Option State
  | [] => some st
  | c :: l =>
      match st.advance with
      | none => none
      | some (c', st') => if c' = c then st'.advanceAll l else none

/-- What a group has captured since `start`. -/
def capture (st start : State) (n : ℕ) : State :=
  { st with caps := (n, start.rest.take (start.rest.length - st.rest.length)) :: st.caps }

/-- The captures of some groups are forgotten. -/
def forget (st : State) (l : List ℕ) : State := { st with caps := st.caps.filter fun x => x.1 ∉ l }

/-- There is a word on one side only. -/
def atBound (st : State) : Bool := (st.before.head?.any isWord) != (st.rest.head?.any isWord)

end State

/-- A matcher: from a state to the first state that what follows accepts. -/
abbrev Matcher := State → (State → Option State) → Option State

/-- The iterations of a loop.  One that takes no character ends the loop once the least number is
reached. -/
def loopRun (m : Matcher) (greedy : Bool) : ℕ → ℕ → Option ℕ → Matcher
  | 0, _, _, _, _ => none
  | fuel + 1, min, max, st, k =>
      let again := m st fun st' =>
        if min = 0 ∧ st'.rest.length = st.rest.length then none
        else loopRun m greedy fuel (min - 1) (max.map (· - 1)) st' k
      if max = some 0 then k st
      else if 0 < min then again
      else if greedy then again <|> k st
      else k st <|> again

/-- **The matcher** of an expression. -/
def run : Regex → Matcher
  | empty, st, k => k st
  | set p, st, k =>
      match st.advance with
      | none => none
      | some (c, st') => if p c then k st' else none
  | seq r s, st, k => r.run st fun st' => s.run st' k
  | alt r s, st, k => r.run st k <|> s.run st k
  | group n r, st, k => r.run st fun st' => k (st'.capture st n)
  | loop min max greedy r, st, k =>
      loopRun (fun st k => r.run (st.forget r.groups) k) greedy (min + st.rest.length + 1)
        min max st k
  | lineBegin, st, k => if st.before = [] then k st else none
  | lineEnd, st, k => if st.rest = [] then k st else none
  | wordBound neg, st, k => if st.atBound != neg then k st else none
  | look neg r, st, k =>
      match r.run st some with
      | none => if neg then k st else none
      | some st' => if neg then none else k { st with caps := st'.caps }
  | backref n, st, k =>
      match st.caps.lookup n with
      | none => k st
      | some l =>
          match st.advanceAll l with
          | none => none
          | some st' => k st'

/-! ### The scanner -/

/-- The kinds of brackets around an expression. -/
inductive Kind where
  | capture (n : ℕ)
  | plain
  | look (neg : Bool)

/-- The tokens of a pattern; the groups get their numbers from the parser. -/
inductive Token where
  | set (p : Char → Bool)
  | bar
  | opens (capture : Bool) (look : Option Bool)
  | closes
  | quant (min : ℕ) (max : Option ℕ) (greedy : Bool)
  | anchor (r : Regex)
  | backref (n : ℕ)

/-- A set in brackets that is being read: its last character, which may begin a range, and whether a
`-` follows it. -/
structure Bracket where
  neg : Bool
  items : Char → Bool
  last : Option Char
  dash : Bool

/-- What the scanner is in the middle of. -/
inductive Mode where
  | normal
  | escape
  | control
  | hex (left value : ℕ)
  | backref (n : ℕ)
  | opened
  | asked
  | quantified (min : ℕ) (max : Option ℕ)
  | atLeast (min : Option ℕ)
  | atMost (min : ℕ) (max : Option ℕ)
  | bracketBegin
  | bracket (b : Bracket)
  | bracketEscape (b : Bracket)
  | bracketControl (b : Bracket)
  | bracketHex (b : Bracket) (left value : ℕ)
  | bracketOpen (b : Bracket)
  | bracketName (b : Bracket) (kind : Char) (name : List Char)
  | bracketClose (b : Bracket) (kind : Char) (name : List Char)

def digitValue (c : Char) : ℕ := c.toNat - '0'.toNat

def hexValue (c : Char) : Option ℕ :=
  if isDigit c then some (digitValue c)
  else if 'a' ≤ c ∧ c ≤ 'f' then some (c.toNat - 'a'.toNat + 10)
  else if 'A' ≤ c ∧ c ≤ 'F' then some (c.toNat - 'A'.toNat + 10)
  else none

def isPunct (c : Char) : Bool := '!' ≤ c ∧ c ≤ '~' ∧ !isAlnum c

/-- The classes that have a name. -/
def classOf (name : List Char) : Option (Char → Bool) :=
  match String.ofList name with
  | "alnum" => some isAlnum
  | "alpha" => some fun c => isUpper c || isLower c
  | "blank" => some fun c => c = ' ' || c = '\t'
  | "cntrl" => some fun c => c.toNat < 32 || c.toNat = 127
  | "d" | "digit" => some isDigit
  | "graph" => some fun c => isAlnum c || isPunct c
  | "lower" => some isLower
  | "print" => some fun c => isAlnum c || isPunct c || c = ' '
  | "punct" => some isPunct
  | "s" | "space" => some isSpace
  | "upper" => some isUpper
  | "w" => some isWord
  | "xdigit" => some fun c => (hexValue c).isSome
  | _ => none

/-- The class of an escape such as `\d`. -/
def escapeClass (c : Char) : Option (Char → Bool) :=
  if c = 'd' then some isDigit
  else if c = 'D' then some fun c => !isDigit c
  else if c = 's' then some isSpace
  else if c = 'S' then some fun c => !isSpace c
  else if c = 'w' then some isWord
  else if c = 'W' then some fun c => !isWord c
  else none

/-- The character of an escape such as `\n`; every other character stands for itself. -/
def escapeChar (c : Char) : Char :=
  if c = '0' then Char.ofNat 0
  else if c = 'f' then Char.ofNat 12
  else if c = 'n' then '\n'
  else if c = 'r' then '\r'
  else if c = 't' then '\t'
  else if c = 'v' then Char.ofNat 11
  else c

def controlChar (c : Char) : Char := Char.ofNat (c.toNat % 32)

def single (c : Char) : Token := .set fun x => x = c

/-- A dot: no line break. -/
def dot (c : Char) : Bool := c ≠ '\n' ∧ c ≠ '\r'

namespace Bracket

/-- A class joins the set; a `-` before it stands for itself. -/
def addClass (b : Bracket) (p : Char → Bool) : Bracket :=
  { b with items := fun x => b.items x || p x || (b.dash && x = '-'), last := none, dash := false }

/-- A character joins the set, as the end of a range after a `-`; `none` for a range that is
empty. -/
def addChar (b : Bracket) (c : Char) : Option Bracket :=
  match b.last, b.dash with
  | some lo, true =>
      if lo ≤ c then
        some { b with
          items := fun x => b.items x || (lo ≤ x && x ≤ c), last := none, dash := false }
      else none
  | _, _ => some { b with items := fun x => b.items x || x = c, last := some c }

/-- The set at its closing bracket. -/
def close (b : Bracket) : Token :=
  .set fun x => (b.items x || (b.dash && x = '-')) != b.neg

end Bracket

/-- A character at the start of a token. -/
def stepNormal (c : Char) : Mode × List Token :=
  if c = '\\' then (.escape, [])
  else if c = '(' then (.opened, [])
  else if c = ')' then (.normal, [.closes])
  else if c = '|' then (.normal, [.bar])
  else if c = '^' then (.normal, [.anchor .lineBegin])
  else if c = '$' then (.normal, [.anchor .lineEnd])
  else if c = '.' then (.normal, [.set dot])
  else if c = '*' then (.quantified 0 none, [])
  else if c = '+' then (.quantified 1 none, [])
  else if c = '?' then (.quantified 0 (some 1), [])
  else if c = '{' then (.atLeast none, [])
  else if c = '[' then (.bracketBegin, [])
  else (.normal, [single c])

/-- Tokens before those of the next character. -/
def emit (l : List Token) (r : Mode × List Token) : Option (Mode × List Token) :=
  some (r.1, l ++ r.2)

/-- A character in brackets, other than the first. -/
def stepBracket (b : Bracket) (c : Char) : Option (Mode × List Token) :=
  if c = ']' then some (.normal, [b.close])
  else if c = '\\' then some (.bracketEscape b, [])
  else if c = '[' then some (.bracketOpen b, [])
  else if c = '-' ∧ b.last.isSome ∧ !b.dash then some (.bracket { b with dash := true }, [])
  else (b.addChar c).map fun b => (.bracket b, [])

/-- **The scanner**: the tokens that a character completes, `none` where the pattern is not well
formed. -/
def step : Mode → Char → Option (Mode × List Token)
  | .normal, c => some (stepNormal c)
  | .escape, c =>
      match escapeClass c with
      | some p => some (.normal, [.set p])
      | none =>
          if c = 'b' then some (.normal, [.anchor (.wordBound false)])
          else if c = 'B' then some (.normal, [.anchor (.wordBound true)])
          else if c = 'c' then some (.control, [])
          else if c = 'x' then some (.hex 2 0, [])
          else if c = 'u' then some (.hex 4 0, [])
          else if isDigit c ∧ c ≠ '0' then some (.backref (digitValue c), [])
          else some (.normal, [single (escapeChar c)])
  | .control, c => some (.normal, [single (controlChar c)])
  | .hex left value, c =>
      (hexValue c).map fun v =>
        if left = 1 then (.normal, [single (Char.ofNat (16 * value + v))])
        else (.hex (left - 1) (16 * value + v), [])
  | .backref n, c =>
      if isDigit c then some (.backref (10 * n + digitValue c), [])
      else emit [.backref n] (stepNormal c)
  | .opened, c => if c = '?' then some (.asked, []) else emit [.opens true none] (stepNormal c)
  | .asked, c =>
      if c = ':' then some (.normal, [.opens false none])
      else if c = '=' then some (.normal, [.opens false (some false)])
      else if c = '!' then some (.normal, [.opens false (some true)])
      else none
  | .quantified min max, c =>
      if c = '?' then some (.normal, [.quant min max false])
      else emit [.quant min max true] (stepNormal c)
  | .atLeast none, c => if isDigit c then some (.atLeast (some (digitValue c)), []) else none
  | .atLeast (some n), c =>
      if isDigit c then some (.atLeast (some (10 * n + digitValue c)), [])
      else if c = ',' then some (.atMost n none, [])
      else if c = '}' then some (.quantified n (some n), [])
      else none
  | .atMost n max, c =>
      if isDigit c then some (.atMost n (some (10 * max.getD 0 + digitValue c)), [])
      else if c = '}' ∧ (max.all fun m => n ≤ m) then some (.quantified n max, [])
      else none
  | .bracketBegin, c =>
      if c = '^' then some (.bracket ⟨true, fun _ => false, none, false⟩, [])
      else stepBracket ⟨false, fun _ => false, none, false⟩ c
  | .bracket b, c => stepBracket b c
  | .bracketEscape b, c =>
      match escapeClass c with
      | some p => some (.bracket (b.addClass p), [])
      | none =>
          if c = 'c' then some (.bracketControl b, [])
          else if c = 'x' then some (.bracketHex b 2 0, [])
          else if c = 'u' then some (.bracketHex b 4 0, [])
          else (b.addChar (if c = 'b' then Char.ofNat 8 else escapeChar c)).map fun b =>
            (.bracket b, [])
  | .bracketControl b, c => (b.addChar (controlChar c)).map fun b => (.bracket b, [])
  | .bracketHex b left value, c =>
      (hexValue c).bind fun v =>
        if left = 1 then (b.addChar (Char.ofNat (16 * value + v))).map fun b => (.bracket b, [])
        else some (.bracketHex b (left - 1) (16 * value + v), [])
  | .bracketOpen b, c =>
      if c = ':' ∨ c = '.' ∨ c = '=' then some (.bracketName b c [], [])
      else (b.addChar '[').bind fun b => stepBracket b c
  | .bracketName b kind name, c =>
      if c = kind then some (.bracketClose b kind name, [])
        else some (.bracketName b kind (name ++ [c]), [])
  | .bracketClose b kind name, c =>
      if c ≠ ']' then none
      else if kind = ':' then (classOf name).map fun p => (.bracket (b.addClass p), [])
      else
        match name with
        | [x] => (b.addChar x).map fun b => (.bracket b, [])
        | _ => none

/-- What is still to be emitted at the end of the pattern. -/
def finish : Mode → Option (List Token)
  | .normal => some []
  | .backref n => some [.backref n]
  | .quantified min max => some [.quant min max true]
  | _ => none

/-- The tokens of a pattern. -/
def scan : Mode → List Char → Option (List Token)
  | mode, [] => finish mode
  | mode, c :: l => (step mode c).bind fun r => (scan r.1 l).map (r.2 ++ ·)

/-! ### The parser -/

/-- An expression that is being read: the alternatives before the last bar, the terms after it, and
the last of these, which a quantifier may still be about. -/
structure Frame where
  kind : Kind
  alts : Option Regex
  terms : Regex
  last : Option Regex

namespace Frame

/-- The terms with the last one. -/
def all (f : Frame) : Regex :=
  match f.last with
  | none => f.terms
  | some r => .seq f.terms r

/-- A term that may be repeated. -/
def push (f : Frame) (r : Regex) : Frame := { f with terms := f.all, last := some r }

/-- A term that may not be repeated. -/
def pushAnchor (f : Frame) (r : Regex) : Frame := { f with terms := .seq f.all r, last := none }

/-- The expression, without its brackets. -/
def body (f : Frame) : Regex :=
  match f.alts with
  | none => f.all
  | some r => .alt r f.all

/-- The expression at its closing bracket joins the one around it. -/
def close (f outer : Frame) : Frame :=
  match f.kind with
  | .capture n => outer.push (.group n f.body)
  | .plain => outer.push f.body
  | .look neg => outer.pushAnchor (.look neg f.body)

/-- An expression at its start. -/
def new (kind : Kind) : Frame := ⟨kind, none, .empty, none⟩

end Frame

/-- **The parser**, with the number of groups so far and the expressions around the one that is
being read. -/
def parseTokens : List Token → ℕ → Frame → List Frame → Option Regex
  | [], _, f, [] => some f.body
  | [], _, _, _ :: _ => none
  | .set p :: l, n, f, outer => parseTokens l n (f.push (.set p)) outer
  | .bar :: l, n, f, outer => parseTokens l n { Frame.new f.kind with alts := some f.body } outer
  | .opens true _ :: l, n, f, outer => parseTokens l (n + 1) (.new (.capture (n + 1))) (f :: outer)
  | .opens false none :: l, n, f, outer => parseTokens l n (.new .plain) (f :: outer)
  | .opens false (some neg) :: l, n, f, outer => parseTokens l n (.new (.look neg)) (f :: outer)
  | .closes :: l, n, f, g :: outer => parseTokens l n (f.close g) outer
  | .closes :: _, _, _, [] => none
  | .quant min max greedy :: l, n, f, outer =>
      match f.last with
      | none => none
      | some r =>
          parseTokens l n { f with terms := .seq f.terms (.loop min max greedy r), last := none }
            outer
  | .anchor r :: l, n, f, outer => parseTokens l n (f.pushAnchor r) outer
  | .backref m :: l, n, f, outer => if m ≤ n then
      parseTokens l n (f.push (.backref m)) outer else none

/-- A pattern as an expression. -/
def parse (pattern : List Char) : Option Regex :=
  (scan .normal pattern).bind fun l => parseTokens l 0 (.new .plain) []

/-- The bytes of a string, each as a character. -/
def bytes (s : String) : List Char :=
  s.toList.flatMap fun c => (String.utf8EncodeChar c).map fun b => Char.ofNat b.toNat

/-- The expression matches the whole of a string. -/
def matchesAll (r : Regex) (l : List Char) : Bool :=
  (r.run ⟨[], l, []⟩ fun st => if st.rest = [] then some st else none).isSome

/-- The pattern is well formed. -/
def wellFormed (pattern : String) : Bool := (parse (bytes pattern)).isSome

/-- **A whole string against a pattern.** -/
def fullMatch (pattern x : String) : Bool :=
  (parse (bytes pattern)).any fun r => r.matchesAll (bytes x)

/-! ### Patterns without special characters -/

/-- The character stands for itself in a pattern, or is a dot. -/
def Plain (c : Char) : Prop := c ∉ ['\\', '(', ')', '|', '^', '$', '*', '+', '?', '{', '[']

instance (c : Char) : Decidable (Plain c) := inferInstanceAs (Decidable (_ ∉ _))

/-- What a plain character stands for. -/
def accepts (c : Char) : Char → Bool := if c = '.' then dot else fun x => x = c

lemma accepts_self (c : Char) : accepts c c = true := by
  rw [accepts]
  split_ifs with h
  · rw [h]
    rfl
  · exact decide_eq_true rfl

lemma stepNormal_of_plain {c : Char} (h : Plain c) :
    stepNormal c = (.normal, [.set (accepts c)]) := by
  simp only [Plain, List.mem_cons, List.not_mem_nil, or_false, not_or] at h
  by_cases hc : c = '.' <;> simp [stepNormal, accepts, single, h, hc]

lemma scan_plain {l : List Char} (h : ∀ c ∈ l, Plain c) (rest : List Char) :
    scan .normal (l ++ rest)
      = (scan .normal rest).map (l.map (fun c => .set (accepts c)) ++ ·) := by
  induction l with
  | nil => simp
  | cons c l ih =>
      rw [List.cons_append, scan, step, stepNormal_of_plain (h c List.mem_cons_self),
        Option.bind_some, ih fun c hc => h c (List.mem_cons_of_mem _ hc), Option.map_map]
      rfl

/-- What follows a quantifier, unless it is a `?`. -/
lemma scan_quantified (min : ℕ) (max : Option ℕ) {l : List Char} (h : l.head? ≠ some '?') :
    scan (.quantified min max) l = (scan .normal l).map (.quant min max true :: ·) := by
  cases l with
  | nil => rfl
  | cons c l =>
      have hc : c ≠ '?' := by simpa using h
      have hstep : step (.quantified min max) c
          = some ((stepNormal c).1, .quant min max true :: (stepNormal c).2) := by
        simp only [step, if_neg hc, emit, List.singleton_append]
      rw [scan, hstep, scan, step, Option.bind_some, Option.bind_some, Option.map_map]
      rfl

lemma scan_any {l : List Char} (h : l.head? ≠ some '?') :
    scan .normal ('.' :: '*' :: l)
      = (scan .normal l).map ([.set dot, .quant 0 none true] ++ ·) := by
  have hstep : ∀ l, scan .normal ('.' :: '*' :: l)
      = (scan (.quantified 0 none) l).map (.set dot :: ·) := by
    intro l
    have hstar : scan .normal ('*' :: l) = scan (.quantified 0 none) l := Option.map_id'
    rw [scan, hstar.symm]
    rfl
  rw [hstep, scan_quantified _ _ h, Option.map_map]
  rfl

/-- Any number of characters. -/
def any : Regex := .loop 0 none true (.set dot)

/-- The terms of a list of characters, after others. -/
def chars (r : Regex) (l : List Char) : Regex := l.foldl (fun r c => .seq r (.set (accepts c))) r

lemma parseTokens_chars (l : List Char) (rest : List Token) (n : ℕ) (f : Frame) (outer : List Frame)
    (hlast : f.last = none) : ∃ f', f'.kind = f.kind ∧ f'.alts = f.alts ∧
      f'.all = chars f.terms l ∧
      parseTokens (l.map (fun c => .set (accepts c)) ++ rest) n f outer
        = parseTokens rest n f' outer := by
  have hall : f.all = f.terms := by rw [Frame.all, hlast]
  rw [← hall]
  clear hall hlast
  induction l generalizing f with
  | nil => exact ⟨f, rfl, rfl, rfl, rfl⟩
  | cons c l ih => exact ih (f.push (.set (accepts c)))

/-- **A pattern without special characters** between `".*"` on both sides. -/
lemma parse_around {l : List Char} (h : ∀ c ∈ l, Plain c) :
    parse (['.', '*'] ++ l ++ ['.', '*']) = some (.seq (chars (.seq .empty any) l) any) := by
  have hhead : (l ++ ['.', '*']).head? ≠ some '?' := by
    cases l with
    | nil => decide
    | cons c l =>
        intro hc
        have hplain := h c List.mem_cons_self
        rw [List.cons_append, List.head?_cons, Option.some.injEq] at hc
        rw [hc] at hplain
        exact absurd hplain (by decide)
  have hscan : scan .normal (['.', '*'] ++ l ++ ['.', '*'])
      = some ([.set dot, .quant 0 none true] ++
          (l.map (fun c => .set (accepts c)) ++ [.set dot, .quant 0 none true])) := by
    have htail : scan .normal ['.', '*'] = some [.set dot, .quant 0 none true] := by
      rw [scan_any (by decide)]
      rfl
    rw [List.append_assoc, List.cons_append, List.cons_append, List.nil_append, scan_any hhead,
      scan_plain h, htail]
    rfl
  rw [parse, hscan, Option.bind_some]
  obtain ⟨f', -, halts, hf', hparse⟩ := parseTokens_chars l [.set dot, .quant 0 none true] 0
    { Frame.new .plain with terms := .seq .empty any, last := none } [] rfl
  have hbody : f'.body = chars (.seq .empty any) l := by rw [Frame.body, halts, hf']; rfl
  refine hparse.trans ?_
  simp only [parseTokens, Frame.push, Frame.body, Frame.all, halts]
  rw [Frame.all] at hf'
  rw [hf']
  rfl

/-- The expression leads from a state to another, at least where what follows accepts it. -/
def Leads (r : Regex) (st st' : State) : Prop := ∀ k, (k st').isSome → (r.run st k).isSome

/-- A loop without a least number of iterations may be left at once. -/
lemma leads_any (st : State) : any.Leads st st := by
  intro k h
  rw [any, run, loopRun]
  simp only [Option.map_none, reduceCtorEq, if_false, lt_irrefl, if_true]
  cases (set dot).run (st.forget (set dot).groups) _ with
  | none => exact h
  | some st' => rfl

lemma Leads.seq {r s : Regex} {st st' st'' : State} (h : r.Leads st st') (h' : s.Leads st' st'') :
    (r.seq s).Leads st st'' := fun k hk => h _ (h' k hk)

/-- The terms of a list of characters take just these. -/
lemma Leads.chars {r : Regex} {st st' : State} (h : r.Leads st st') {l rest : List Char}
    (hst : st'.rest = l ++ rest) : ∃ st'', st''.rest = rest ∧ (chars r l).Leads st st'' := by
  induction l generalizing r st' with
  | nil => exact ⟨st', hst, h⟩
  | cons c l ih =>
      have hc : (Regex.set (accepts c)).Leads st'
          { st' with before := c :: st'.before, rest := l ++ rest } := by
        intro k hk
        rw [run, State.advance, hst]
        dsimp only [List.cons_append]
        rw [if_pos (accepts_self c)]
        exact hk
      exact ih (h.seq hc) rfl

lemma bytes_append (s t : String) : bytes (s ++ t) = bytes s ++ bytes t := by
  rw [bytes, String.toList_append, List.flatMap_append]
  rfl

/-- **A pattern without special characters**, between `".*"` on both sides, matches itself. -/
theorem fullMatch_around {s : String} (h : ∀ c ∈ bytes s, Plain c) :
    fullMatch (".*" ++ s ++ ".*") s = true := by
  have hbytes : bytes (".*" ++ s ++ ".*") = ['.', '*'] ++ bytes s ++ ['.', '*'] := by
    rw [bytes_append, bytes_append]
    rfl
  rw [fullMatch, hbytes, parse_around h]
  have hstart : (Regex.empty.seq any).Leads ⟨[], bytes s, []⟩ ⟨[], bytes s, []⟩ :=
    Leads.seq (fun k hk => hk) (leads_any _)
  obtain ⟨st, hrest, hst⟩ := hstart.chars (l := bytes s) (List.append_nil _).symm
  refine hst.seq (leads_any st) _ ?_
  rw [if_pos hrest]
  rfl

end Regex
