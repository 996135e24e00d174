import DeltaMatch.Graph.Snapshot
import DeltaMatch.Label.Json

/-! The JSON form of snapshots. Everything is written; the labels of vertices and of
edges may be left out when read. -/
namespace DeltaMatch

namespace Edge

/-- The JSON form of an edge. -/
def toJson (e : Edge) : Json :=
  .record [("from", .nat e.source.toNat), ("to", .nat e.target.toNat), ("ty", e.label.toJson)]

/-- Reads an edge, which is plain unless it has a label. -/
def ofJson? (v : Json) : Option Edge :=
  match Json.fields? ["from", "to", "ty"] v with
  | some [some source, some target, label] => do
    let source ← Json.word32? source
    let target ← Json.word32? target
    match label with
    | none => return ⟨source, target, .plain⟩
    | some label => return ⟨source, target, ← Label.ofJson? label⟩
  | _ => none

end Edge

namespace Snapshot

/-- The JSON form of a snapshot. -/
def toJson (s : Snapshot) : Json :=
  .record [("vertex_count", .nat s.vertexCount),
    ("vertex_types", .array (s.vertexLabels.map Label.toJson)),
    ("edges", .array (s.edges.map Edge.toJson))]

/-- Reads a snapshot, in which vertices are plain unless they have labels. -/
def ofJson? (v : Json) : Option Snapshot :=
  match Json.fields? ["vertex_count", "vertex_types", "edges"] v with
  | some [some count, labels, some edges] => do
    let count ← Json.nat64? count
    let edges ← Json.list? Edge.ofJson? edges
    match labels with
    | none => return ⟨count, [], edges⟩
    | some labels => return ⟨count, ← Json.list? Label.ofJson? labels, edges⟩
  | _ => none

/-- The text of a snapshot. -/
def write (s : Snapshot) : String := s.toJson.render

/-- Reads the text of a snapshot. -/
def read? (text : String) : Option Snapshot := (Json.parse? text).bind ofJson?

end Snapshot
end DeltaMatch
