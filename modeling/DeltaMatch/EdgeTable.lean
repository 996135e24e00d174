import DeltaMatch.EdgeSpec
import DeltaMatch.Graph.Snapshot
import DeltaMatch.Text.Delimited

/-! Edge tables: delimited text with a header and one edge per row. Columns are found
by their name in the header, whatever the case of its ASCII letters. -/
namespace DeltaMatch

/-- Why a table is turned down. -/
inductive TableError where
  /-- A record is not valid text. -/
  | malformed
  /-- The header lacks a column. -/
  | missingColumn (name : String)
  /-- A row has no value in a column. -/
  | missingValue (name : String)
  /-- The value in a vertex column is not a vertex number. -/
  | vertex (row : Nat) (value name : String)
  /-- The value in the type column is not a non-negative number. -/
  | label (row : Nat) (value : String)
  /-- The edges cannot be loaded. -/
  | load (cause : GraphError)
  deriving DecidableEq

namespace TableError

/-- The wording of the cause. Rows are counted from one. -/
def message : TableError → String
  | malformed => "invalid UTF-8 in a record"
  | missingColumn name => "column '" ++ name ++ "' not found"
  | missingValue name => "missing value for column '" ++ name ++ "'"
  | vertex row value name =>
    "row " ++ toString row ++ ": '" ++ value ++ "' is not a vertex id in column '" ++ name ++ "'"
  | label row value =>
    "row " ++ toString row ++ ": '" ++ value ++ "' is not a non-negative edge type"
  | load cause => cause.message

end TableError

namespace EdgeTable

/-- How a table is read. -/
structure Layout where
  sourceColumn : String := "from"
  targetColumn : String := "to"
  /-- The column of the labels; without one every edge is plain. -/
  labelColumn : Option String := none
  /-- The number of vertex slots; without one there are just enough. -/
  vertexCount : Option Nat := none
  delimiter : UInt8 := 44

/-- A row or header as text, its fields trimmed. -/
def textOf (record : List Delimited.Field) : Except TableError (List (List Char)) :=
  record.mapM fun field =>
    match String.fromUTF8? ⟨field.toArray⟩ with
    | some s => .ok (trim s.toList)
    | none => .error .malformed

/-- The lower case of an ASCII letter. -/
def foldCase (c : Char) : Char := c.toLower

/-- The position of the first column of a name. -/
def columnOf (header : List (List Char)) (name : String) : Except TableError Nat :=
  match header.findIdx? fun h => h.map foldCase == name.toList.map foldCase with
  | some i => .ok i
  | none => .error (.missingColumn name)

/-- The value of a row in a column, which must not be empty. -/
def valueOf (row : List (List Char)) (column : Nat) (name : String) :
    Except TableError (List Char) :=
  match row[column]? with
  | none | some [] => .error (.missingValue name)
  | some value => .ok value

/-- The vertex of a row in a column. -/
def vertexOf (row : List (List Char)) (column : Nat) (name : String) (number : Nat) :
    Except TableError VertexId := do
  let value ← valueOf row column name
  match Numeral.word32? value with
  | some v => return v
  | none => throw (.vertex number (String.ofList value) name)

/-- The label of a row. -/
def labelOf (row : List (List Char)) (column : Nat) (name : String) (number : Nat) :
    Except TableError Label := do
  let value ← valueOf row column name
  match EdgeSpec.storedLabel? value with
  | some l => return l
  | none => throw (.label number (String.ofList value))

/-- The positions of the columns. -/
structure Columns where
  source : Nat
  target : Nat
  label : Option (Nat × String)

/-- Finds the columns of a layout in a header. -/
def Columns.find (layout : Layout) (header : List (List Char)) : Except TableError Columns := do
  let source ← columnOf header layout.sourceColumn
  let target ← columnOf header layout.targetColumn
  match layout.labelColumn with
  | none => return ⟨source, target, none⟩
  | some name =>
    let column ← columnOf header name
    return ⟨source, target, some (column, name)⟩

/-- The edge of a row. -/
def edgeOf (layout : Layout) (columns : Columns) (number : Nat) (row : List (List Char)) :
    Except TableError Edge := do
  let source ← vertexOf row columns.source layout.sourceColumn number
  let target ← vertexOf row columns.target layout.targetColumn number
  match columns.label with
  | none => return ⟨source, target, .plain⟩
  | some (column, name) =>
    let label ← labelOf row column name number
    return ⟨source, target, label⟩

/-- The edges of the rows, which are numbered from one. -/
def edgesOf (layout : Layout) (columns : Columns) (rows : List (List Delimited.Field)) :
    Except TableError (List Edge) :=
  (rows.zipIdx 1).mapM fun (record, number) => do
    edgeOf layout columns number (← textOf record)

/-- Reads every edge of a table in the order of the rows. A table without a header
has no columns. -/
def read (layout : Layout) (bytes : List UInt8) : Except TableError (List Edge) := do
  let table := Delimited.records layout.delimiter bytes
  let header ← textOf (table.headD [])
  let columns ← Columns.find layout header
  edgesOf layout columns table.tail

/-- What an import amounted to. -/
structure Summary where
  rows : Nat
  edges : Nat
  vertexCount : Nat
  deriving DecidableEq

/-- Just enough vertex slots for some edges. -/
def slotsFor (edges : List Edge) : Nat :=
  edges.foldl (fun n e => max n (e.highest.toNat + 1)) 0

/-- Reads a table and loads its edges. -/
def load (layout : Layout) (bytes : List UInt8) : Except TableError (Graph × Summary) := do
  let edges ← read layout bytes
  let vertexCount := layout.vertexCount.getD (slotsFor edges)
  match Graph.load vertexCount edges with
  | .error e => throw (.load e)
  | .ok g => return (g, ⟨edges.length, g.edgeCount, vertexCount⟩)

/-- One line of a table. -/
def line (e : Edge) : String :=
  toString e.source.toNat ++ "," ++ toString e.target.toNat ++ "," ++
    toString e.label.code.toInt ++ "\n"

/-- The table of some edges, with a type column. -/
def write (edges : List Edge) : String :=
  edges.foldl (fun text e => text ++ line e) "from,to,type\n"

end EdgeTable
end DeltaMatch
