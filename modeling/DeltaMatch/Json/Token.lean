import DeltaMatch.Json.Basic

/-! JSON tokens: strings, numerals, words and punctuation, with the blanks between
them skipped. -/
namespace DeltaMatch
namespace Json

/-- The pieces of a JSON text. -/
inductive Token where
  | openArray
  | closeArray
  | openObject
  | closeObject
  | comma
  | colon
  /-- A value that is written as one piece. -/
  | scalar (value : Json)

/-- The blanks of JSON, fewer than those of Unicode. -/
def isSpace (c : Char) : Bool := c == ' ' || c == '\n' || c == '\t' || c == '\r'

/-! ## Strings -/

/-- A piece of a string: a character or an escaped UTF-16 code unit. -/
inductive Piece where
  | char (c : Char)
  | unit (code : Nat)

/-- The value of a hexadecimal digit. -/
def hexValue? (c : Char) : Option Nat :=
  if '0' ≤ c ∧ c ≤ '9' then some (c.toNat - '0'.toNat)
  else if 'a' ≤ c ∧ c ≤ 'f' then some (c.toNat - 'a'.toNat + 10)
  else if 'A' ≤ c ∧ c ≤ 'F' then some (c.toNat - 'A'.toNat + 10)
  else none

/-- The code unit of four hexadecimal digits. -/
def codeUnit? (a b c d : Char) : Option Nat := do
  let a ← hexValue? a
  let b ← hexValue? b
  let c ← hexValue? c
  let d ← hexValue? d
  return ((a * 16 + b) * 16 + c) * 16 + d

/-- The character that a letter stands for after a backslash. -/
def escape? : Char → Option Char
  | '"' => some '"'
  | '\\' => some '\\'
  | '/' => some '/'
  | 'b' => some '\x08'
  | 'f' => some '\x0c'
  | 'n' => some '\n'
  | 'r' => some '\r'
  | 't' => some '\t'
  | _ => none

/-- The pieces of a string up to its closing quote, and what follows. Control
characters must be escaped. -/
def stringBody : List Char → Option (List Piece × List Char)
  | [] => none
  | '"' :: rest => some ([], rest)
  | '\\' :: 'u' :: a :: b :: c :: d :: rest => do
    let code ← codeUnit? a b c d
    let (pieces, rest) ← stringBody rest
    return (.unit code :: pieces, rest)
  | '\\' :: e :: rest => do
    let c ← escape? e
    let (pieces, rest) ← stringBody rest
    return (.char c :: pieces, rest)
  | c :: rest =>
    if c.toNat < 32 then none
    else do
      let (pieces, rest) ← stringBody rest
      return (.char c :: pieces, rest)

/-- Whether a code unit is the first half of a surrogate pair. -/
def isLeading (code : Nat) : Bool := 0xD800 ≤ code && code ≤ 0xDBFF

/-- Whether a code unit is the second half of a surrogate pair. -/
def isTrailing (code : Nat) : Bool := 0xDC00 ≤ code && code ≤ 0xDFFF

/-- The text of a string, unless it holds half of a surrogate pair alone. -/
def textOf? : List Piece → Option (List Char)
  | [] => some []
  | .char c :: rest => (textOf? rest).map (c :: ·)
  | .unit high :: .unit low :: rest =>
    if isLeading high && isTrailing low then
      (textOf? rest).map
        (Char.ofNat (0x10000 + (high - 0xD800) * 0x400 + (low - 0xDC00)) :: ·)
    else if isLeading high || isTrailing high then none
    else (textOf? (.unit low :: rest)).map (Char.ofNat high :: ·)
  | .unit code :: rest =>
    if isLeading code || isTrailing code then none
    else (textOf? rest).map (Char.ofNat code :: ·)

/-! ## Numerals -/

/-- Whether a character can occur in a numeral. -/
def isNumeral (c : Char) : Bool :=
  c.isDigit || c == '-' || c == '+' || c == '.' || c == 'e' || c == 'E'

/-- Whether a text is a non-empty run of digits. -/
def isDigits (cs : List Char) : Bool := !cs.isEmpty && cs.all Char.isDigit

/-- Whether a text is an exponent without its letter. -/
def isExponent : List Char → Bool
  | '+' :: rest | '-' :: rest => isDigits rest
  | cs => isDigits cs

/-- Whether a text can follow the integer digits of a numeral. -/
def isFraction (cs : List Char) : Bool :=
  match cs with
  | 'e' :: rest | 'E' :: rest => isExponent rest
  | '.' :: rest =>
    !(rest.takeWhile Char.isDigit).isEmpty &&
      match rest.dropWhile Char.isDigit with
      | [] => true
      | 'e' :: rest | 'E' :: rest => isExponent rest
      | _ => false
  | _ => false

/-- The value of a numeral without its sign. -/
def unsigned? (negative : Bool) (cs : List Char) : Option Json :=
  let digits := cs.takeWhile Char.isDigit
  let rest := cs.dropWhile Char.isDigit
  if digits.isEmpty || (1 < digits.length && digits.head? == some '0') then none
  else if rest.isEmpty then
    let n := digits.foldl (fun n c => 10 * n + (c.toNat - '0'.toNat)) 0
    if !negative then some (.integer n)
    else if n = 0 then some .fractional
    else some (.integer (-n))
  else if isFraction rest then some .fractional
  else none

/-- The value of a numeral. -/
def numeral? : List Char → Option Json
  | '-' :: rest => unsigned? true rest
  | cs => unsigned? false cs

/-- The value of a word. -/
def word? (cs : List Char) : Option Json :=
  if cs = ['n', 'u', 'l', 'l'] then some .null
  else if cs = ['t', 'r', 'u', 'e'] then some (.bool true)
  else if cs = ['f', 'a', 'l', 's', 'e'] then some (.bool false)
  else none

/-! ## One token -/

/-- The token that starts with a character, and what follows it. A numeral or a word
runs as far as its characters go. -/
def nextToken (c : Char) (rest : List Char) : Option (Token × List Char) :=
  if c = '[' then some (.openArray, rest)
  else if c = ']' then some (.closeArray, rest)
  else if c = '\x7b' then some (.openObject, rest)
  else if c = '\x7d' then some (.closeObject, rest)
  else if c = ',' then some (.comma, rest)
  else if c = ':' then some (.colon, rest)
  else if c = '"' then
    (stringBody rest).map fun (pieces, rest) =>
      (.scalar (.string ((textOf? pieces).map String.ofList)), rest)
  else if isNumeral c then
    (numeral? (c :: rest.takeWhile isNumeral)).map fun v =>
      (.scalar v, rest.dropWhile isNumeral)
  else
    (word? (c :: rest.takeWhile Char.isAlpha)).map fun v =>
      (.scalar v, rest.dropWhile Char.isAlpha)

/-- A string leaves less than what follows its opening quote. -/
theorem length_stringBody {cs rest : List Char} {pieces : List Piece}
    (h : stringBody cs = some (pieces, rest)) : rest.length < cs.length := by
  fun_induction stringBody cs generalizing pieces rest with
  | case1 | case5 => simp at h
  | case2 => simp_all
  | case3 _ _ _ _ _ ih | case4 _ _ _ ih | case6 _ _ _ _ _ _ ih =>
    simp only [Option.bind_eq_bind, Option.bind_eq_some_iff, Option.pure_def, Prod.exists] at h
    grind

/-- A token leaves no more than what followed its first character. -/
theorem length_nextToken {c : Char} {cs rest : List Char} {t : Token}
    (h : nextToken c cs = some (t, rest)) : rest.length ≤ cs.length := by
  unfold nextToken at h
  split at h; · simp at h; simp [h.2]
  split at h; · simp at h; simp [h.2]
  split at h; · simp at h; simp [h.2]
  split at h; · simp at h; simp [h.2]
  split at h; · simp at h; simp [h.2]
  split at h; · simp at h; simp [h.2]
  split at h
  · simp only [Option.map_eq_some_iff, Prod.mk.injEq, Prod.exists] at h
    obtain ⟨_, _, h, _, rfl⟩ := h
    exact Nat.le_of_lt (length_stringBody h)
  split at h
  · simp only [Option.map_eq_some_iff, Prod.mk.injEq] at h
    obtain ⟨_, _, _, rfl⟩ := h
    exact (List.dropWhile_sublist _).length_le
  · simp only [Option.map_eq_some_iff, Prod.mk.injEq] at h
    obtain ⟨_, _, _, rfl⟩ := h
    exact (List.dropWhile_sublist _).length_le

end Json
end DeltaMatch
