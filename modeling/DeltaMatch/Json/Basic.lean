/-! JSON values and their compact text. -/
namespace DeltaMatch

/-- A JSON value. Numerals with a fraction or an exponent, and the negative zero, are
not told apart, since nothing here reads their value. A string with an escaped half
of a surrogate pair has no text. The fields of an object keep their order. -/
inductive Json where
  | null
  | bool (value : Bool)
  | integer (value : Int)
  | fractional
  | string (text : Option String)
  | array (items : List Json)
  | object (fields : List (Option String × Json))

namespace Json

/-- A string value. -/
def text (s : String) : Json := .string (some s)

/-- A natural number. -/
def nat (n : Nat) : Json := .integer n

/-- An object with the given fields. -/
def record (fields : List (String × Json)) : Json :=
  .object (fields.map fun (name, value) => (some name, value))

/-! ## Writing -/

/-- The digits of a control character, four of them in lower case. -/
def hexDigits (n : Nat) : List Char :=
  let digits := Nat.toDigits 16 n
  List.replicate (4 - digits.length) '0' ++ digits

/-- A character inside a string. Quotes, backslashes and control characters are
escaped, the common ones by a letter. -/
def escaped (c : Char) : List Char :=
  if c = '"' then ['\\', '"']
  else if c = '\\' then ['\\', '\\']
  else if c.toNat = 8 then ['\\', 'b']
  else if c.toNat = 9 then ['\\', 't']
  else if c.toNat = 10 then ['\\', 'n']
  else if c.toNat = 12 then ['\\', 'f']
  else if c.toNat = 13 then ['\\', 'r']
  else if c.toNat < 32 then '\\' :: 'u' :: hexDigits c.toNat
  else [c]

/-- A string in quotes. A string without text is written as an empty one. -/
def quoted (s : Option String) : List Char :=
  '"' :: (s.getD "").toList.flatMap escaped ++ ['"']

/-- The decimal digits of an integer, after its sign. -/
def integerText (n : Int) : List Char := (toString n).toList

mutual

/-- The compact text of a value. A numeral without a value is written as zero. -/
def chars : Json → List Char
  | null => ['n', 'u', 'l', 'l']
  | bool true => ['t', 'r', 'u', 'e']
  | bool false => ['f', 'a', 'l', 's', 'e']
  | integer n => integerText n
  | fractional => ['0']
  | string s => quoted s
  | array items => '[' :: itemChars items
  | object fields => '\x7b' :: fieldChars fields

/-- The rest of an array. -/
def itemChars : List Json → List Char
  | [] => [']']
  | [v] => v.chars ++ [']']
  | v :: rest => v.chars ++ ',' :: itemChars rest

/-- The rest of an object. -/
def fieldChars : List (Option String × Json) → List Char
  | [] => ['\x7d']
  | [(name, v)] => quoted name ++ ':' :: v.chars ++ ['\x7d']
  | (name, v) :: rest => quoted name ++ ':' :: v.chars ++ ',' :: fieldChars rest

end

/-- The compact text of a value. -/
def render (v : Json) : String := String.ofList v.chars

end Json
end DeltaMatch
