import DeltaMatch.Graph.SnapshotJson
import DeltaMatch.Proofs.Json.Records

/-!
# The text of a snapshot

A snapshot is written with all of its fields, so that reading needs none of the values that
stand for missing ones. The text gives back the snapshot, the order and the repetitions of its
edges included.
-/

namespace DeltaMatch

theorem Label.ofJson?_toJson (l : Label) : ofJson? l.toJson = some l := by
  rw [ofJson?, toJson, Json.int16?_integer]
  rfl

theorem Label.hasText_toJson (l : Label) : l.toJson.HasText := .integer _

namespace Edge

theorem ofJson?_toJson (e : Edge) : ofJson? e.toJson = some e := by
  have hfields : Json.fields? ["from", "to", "ty"] e.toJson = some [some (.nat e.source.toNat),
      some (.nat e.target.toNat), some e.label.toJson] := Json.fields?_record rfl rfl (by decide)
  simp [ofJson?, hfields, Json.word32?_nat, Label.ofJson?_toJson]

theorem hasText_toJson (e : Edge) : e.toJson.HasText := by
  refine Json.hasText_record ?_
  simp [Json.hasText_nat, Label.hasText_toJson]

end Edge

namespace Snapshot

theorem ofJson?_toJson (s : Snapshot) (h : s.vertexCount < UInt64.size) :
    ofJson? s.toJson = some s := by
  have hfields : Json.fields? ["vertex_count", "vertex_types", "edges"] s.toJson =
      some [some (.nat s.vertexCount), some (.array (s.vertexLabels.map Label.toJson)),
        some (.array (s.edges.map Edge.toJson))] := Json.fields?_record rfl rfl (by decide)
  have hlabels := Json.list?_array s.vertexLabels fun l _ => l.ofJson?_toJson
  have hedges := Json.list?_array s.edges fun e _ => e.ofJson?_toJson
  simp [ofJson?, hfields, Json.nat64?_nat h, hlabels, hedges]

theorem hasText_toJson (s : Snapshot) : s.toJson.HasText := by
  refine Json.hasText_record ?_
  simp [Json.hasText_nat, Json.hasText_array Label.hasText_toJson,
    Json.hasText_array Edge.hasText_toJson]

/-- **A written snapshot is read back**, if its slots can be counted. -/
theorem read?_write (s : Snapshot) (h : s.vertexCount < UInt64.size) :
    read? s.write = some s := by
  rw [read?, write, Json.parse?_render s.hasText_toJson]
  exact s.ofJson?_toJson h

end Snapshot
end DeltaMatch
