/-! Delimited text: records of fields, read byte by byte. A record ends at a carriage
return or a line feed, and empty lines are skipped. A field that starts with a quote
runs to the next single quote, a doubled quote standing for one; what follows the
closing quote is appended as it stands. Quotes elsewhere are ordinary bytes, and the
end of the text closes an open quote. -/
namespace DeltaMatch
namespace Delimited

/-- A field as it was found between its delimiters, unquoted. -/
abbrev Field := List UInt8

/-- Where in a record the reader stands. -/
inductive Place where
  /-- Before the first byte of a record. -/
  | recordStart
  /-- Before the first byte of a field. -/
  | fieldStart
  /-- Inside a field, outside quotes. -/
  | plain
  /-- Inside quotes. -/
  | quoted
  /-- Just after a quote inside quotes. -/
  | afterQuote
  deriving DecidableEq

/-- The state of the reader. The field, the record and the list of records under way
are kept with their latest element first. -/
structure Reader where
  place : Place := .recordStart
  field : Field := []
  record : List Field := []
  records : List (List Field) := []

/-- The double quote. -/
def quote : UInt8 := 34

/-- Whether a byte ends a record. -/
def isTerminator (b : UInt8) : Bool := b == 10 || b == 13

namespace Reader

/-- Adds a byte to the field. -/
def append (r : Reader) (b : UInt8) (place : Place) : Reader :=
  { r with field := b :: r.field, place }

/-- Ends the field. -/
def endField (r : Reader) : Reader :=
  { r with field := [], record := r.field.reverse :: r.record, place := .fieldStart }

/-- Ends the field and the record. -/
def endRecord (r : Reader) : Reader :=
  let r := r.endField
  { r with record := [], records := r.record.reverse :: r.records, place := .recordStart }

/-- Takes a byte outside quotes, where a quote has no meaning any more. -/
def outside (delimiter : UInt8) (r : Reader) (b : UInt8) : Reader :=
  if b == delimiter then r.endField
  else if isTerminator b then r.endRecord
  else r.append b .plain

/-- Takes the next byte. -/
def step (delimiter : UInt8) (r : Reader) (b : UInt8) : Reader :=
  match r.place with
  | .recordStart =>
    if isTerminator b then r
    else if b == quote then { r with place := .quoted }
    else r.outside delimiter b
  | .fieldStart => if b == quote then { r with place := .quoted } else r.outside delimiter b
  | .plain => r.outside delimiter b
  | .quoted => if b == quote then { r with place := .afterQuote } else r.append b .quoted
  | .afterQuote => if b == quote then r.append b .quoted else r.outside delimiter b

/-- Ends the text. A record under way is complete. -/
def finish (r : Reader) : List (List Field) :=
  match r.place with
  | .recordStart => r.records.reverse
  | _ => r.endRecord.records.reverse

end Reader

/-- The text without a byte order mark at its start. -/
def withoutMark : List UInt8 → List UInt8
  | 0xEF :: 0xBB :: 0xBF :: rest => rest
  | bytes => bytes

/-- The records of a text. -/
def records (delimiter : UInt8) (bytes : List UInt8) : List (List Field) :=
  ((withoutMark bytes).foldl (Reader.step delimiter) {}).finish

end Delimited
end DeltaMatch
