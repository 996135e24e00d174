import DeltaMatch.Json.Token

/-! Reading JSON. The reader keeps a stack of the arrays and objects that are open
and takes one token at a time, so that nesting is not limited. -/
namespace DeltaMatch
namespace Json

/-- An array or object that is still open, its latest element first. -/
inductive Frame where
  | array (items : List Json)
  /-- The name is that of the field under way. -/
  | object (fields : List (Option String × Json)) (name : Option String)

/-- What the reader expects next. -/
inductive Expectation where
  | value
  /-- A value or the end of an array. -/
  | firstItem
  | fieldName
  /-- A field name or the end of an object. -/
  | firstField
  | colon
  /-- A comma or the end of what is open. -/
  | continuation
  /-- Nothing but blanks, the text being complete. -/
  | done (value : Json)

/-- The state of the reader. -/
structure Reader where
  expected : Expectation
  frames : List Frame

namespace Reader

/-- Before the first character. -/
def start : Reader := ⟨.value, []⟩

/-- Places a complete value into what is open. -/
def complete (v : Json) : List Frame → Reader
  | [] => ⟨.done v, []⟩
  | .array items :: rest => ⟨.continuation, .array (v :: items) :: rest⟩
  | .object fields name :: rest => ⟨.continuation, .object ((name, v) :: fields) none :: rest⟩

/-- Takes the start of a value. -/
def takeValue (frames : List Frame) : Token → Option Reader
  | .scalar v => some (complete v frames)
  | .openArray => some ⟨.firstItem, .array [] :: frames⟩
  | .openObject => some ⟨.firstField, .object [] none :: frames⟩
  | _ => none

/-- Takes the name of a field. -/
def takeName (frames : List Frame) (t : Token) : Option Reader :=
  match frames, t with
  | .object fields _ :: rest, .scalar (.string name) =>
    some ⟨.colon, .object fields name :: rest⟩
  | _, _ => none

/-- Takes the end of what is open. -/
def takeClose (frames : List Frame) (t : Token) : Option Reader :=
  match frames, t with
  | .array items :: rest, .closeArray => some (complete (.array items.reverse) rest)
  | .object fields _ :: rest, .closeObject => some (complete (.object fields.reverse) rest)
  | _, _ => none

/-- Takes a comma or the end of what is open. -/
def takeContinuation (frames : List Frame) (t : Token) : Option Reader :=
  match frames, t with
  | .array _ :: _, .comma => some ⟨.value, frames⟩
  | .object .. :: _, .comma => some ⟨.fieldName, frames⟩
  | _, _ => takeClose frames t

/-- Takes the next token. -/
def take (r : Reader) (t : Token) : Option Reader :=
  match r.expected, t with
  | .value, t => takeValue r.frames t
  | .firstItem, .closeArray => takeClose r.frames .closeArray
  | .firstItem, t => takeValue r.frames t
  | .fieldName, t => takeName r.frames t
  | .firstField, .closeObject => takeClose r.frames .closeObject
  | .firstField, t => takeName r.frames t
  | .colon, .colon => some { r with expected := .value }
  | .continuation, t => takeContinuation r.frames t
  | _, _ => none

/-- Takes the tokens of a text. -/
def takeAll (r : Reader) (cs : List Char) : Option Reader :=
  match cs with
  | [] => some r
  | c :: rest =>
    if isSpace c then r.takeAll rest
    else
      match h : nextToken c rest with
      | none => none
      | some (t, rest') =>
        have := length_nextToken h
        match r.take t with
        | none => none
        | some r => r.takeAll rest'
termination_by cs.length
decreasing_by all_goals simp only [List.length_cons]; omega

/-- The value that was read, if the text is complete. -/
def result? (r : Reader) : Option Json :=
  match r.expected with
  | .done v => some v
  | _ => none

end Reader

/-- Reads the value that makes up a whole text. -/
def parse? (text : String) : Option Json :=
  (Reader.start.takeAll text.toList).bind Reader.result?

/-! ## Decoding -/

/-- The fields of an object that has no name twice among the given ones. Names must
have a text, and names that are not given are skipped. -/
def namedFields? (names : List String) :
    List (Option String × Json) → Option (List (String × Json))
  | [] => some []
  | (none, _) :: _ => none
  | (some name, v) :: rest => do
    let others ← namedFields? names rest
    if !names.contains name then return others
    else if others.any (·.1 == name) then none
    else return (name, v) :: others

/-- The values of a record by the position of their names. A record is written as an
object, or as an array of its first values in order; values may be missing from
both. -/
def fields? (names : List String) : Json → Option (List (Option Json))
  | .object fields => do
    let named ← namedFields? names fields
    return names.map fun name => named.lookup name
  | .array items =>
    if items.length ≤ names.length then
      some (items.map some ++ List.replicate (names.length - items.length) none)
    else none
  | _ => none

/-- Reads an integer between two bounds, both included. -/
def integer? (low high : Int) : Json → Option Int
  | .integer n => if low ≤ n ∧ n ≤ high then some n else none
  | _ => none

/-- Reads a 64-bit number without a sign. -/
def nat64? (v : Json) : Option Nat := (integer? 0 (UInt64.size - 1) v).map Int.toNat

/-- Reads a 32-bit number without a sign. -/
def word32? (v : Json) : Option UInt32 :=
  (integer? 0 (UInt32.size - 1) v).map fun n => UInt32.ofNat n.toNat

/-- Reads a signed 16-bit number. -/
def int16? (v : Json) : Option Int16 :=
  (integer? Int16.minValue.toInt Int16.maxValue.toInt v).map Int16.ofInt

/-- Reads an array of values of one kind. -/
def list? {α : Type} (item? : Json → Option α) : Json → Option (List α)
  | .array items => items.mapM item?
  | _ => none

/-- Reads one of several names, written as a string or as an object with that one
field, its value being null. -/
def name? {α : Type} (ofName? : String → Option α) : Json → Option α
  | .string (some s) => ofName? s
  | .object [(some s, .null)] => ofName? s
  | _ => none

end Json
end DeltaMatch
