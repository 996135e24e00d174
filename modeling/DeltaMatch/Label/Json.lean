import DeltaMatch.Json.Reader
import DeltaMatch.Label

/-! The JSON form of labels. -/
namespace DeltaMatch
namespace Label

/-- A label is written as its code. -/
def toJson (l : Label) : Json := .integer l.code.toInt

/-- Reads a label. -/
def ofJson? (v : Json) : Option Label := (Json.int16? v).map Label.mk

end Label

end DeltaMatch
