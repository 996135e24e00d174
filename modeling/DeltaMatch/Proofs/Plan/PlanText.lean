import DeltaMatch.Plan.Json
import DeltaMatch.Proofs.Graph.SnapshotText

/-!
# The text of a plan

A plan is written with the names of its directions and views, and with all of its fields, none
of which may be missing. Like a snapshot it can be told from its text.
-/

namespace DeltaMatch

theorem Json.name?_text {α : Type} {ofName? : String → Option α} {name : String} {x : α}
    (h : ofName? name = some x) : Json.name? ofName? (.text name) = some x := h

theorem Json.hasText_text (s : String) : (Json.text s).HasText := .string s

namespace Rule

theorem ofJson?_toJson (r : Rule) (h : r.slot < UInt64.size) : ofJson? r.toJson = some r := by
  have hfields : Json.fields? ["prefix_slot", "direction", "version", "edge_type"] r.toJson =
      some [some (.nat r.slot), some (.text r.direction.name), some (.text r.view.name),
        some r.filter.toJson] := Json.fields?_record rfl rfl (by decide)
  have hdirection := Json.name?_text r.direction.ofName?_name
  have hview := Json.name?_text r.view.ofName?_name
  simp [ofJson?, hfields, Json.nat64?_nat h, hdirection, hview, Label.ofJson?_toJson]

theorem hasText_toJson (r : Rule) : r.toJson.HasText := by
  refine Json.hasText_record ?_
  simp [Json.hasText_nat, Json.hasText_text, Label.hasText_toJson]

end Rule

namespace Plan

/-- The slots that the rules of the plan read can be counted. -/
def Countable (p : Plan) : Prop := ∀ stage ∈ p.stages, ∀ r ∈ stage, r.slot < UInt64.size

instance (p : Plan) : Decidable p.Countable :=
  inferInstanceAs (Decidable (∀ stage ∈ p.stages, ∀ r ∈ stage, r.slot < UInt64.size))

theorem ofJson?_toJson (p : Plan) (h : p.Countable) : ofJson? p.toJson = some p := by
  have hfields : Json.fields? ["stages"] p.toJson =
      some [some (.array (p.stages.map fun stage => .array (stage.map Rule.toJson)))] :=
    Json.fields?_record rfl rfl (by decide)
  have hstages := Json.list?_array p.stages fun stage hstage =>
    Json.list?_array stage fun r hr => r.ofJson?_toJson (h stage hstage r hr)
  simp [ofJson?, hfields, hstages]

theorem hasText_toJson (p : Plan) : p.toJson.HasText := by
  refine Json.hasText_record ?_
  have hstages := Json.hasText_array (fun stage : Stage =>
    Json.hasText_array Rule.hasText_toJson stage) p.stages
  simpa using hstages

/-- **A written plan is read back**, if its slots can be counted. -/
theorem read?_write (p : Plan) (h : p.Countable) : read? p.write = some p := by
  rw [read?, write, Json.parse?_render p.hasText_toJson]
  exact p.ofJson?_toJson h

end Plan

/-- What is read back can be told from its text. -/
theorem eq_of_read_back {α : Type} {read? : String → Option α} {write : α → String} {x y : α}
    (hx : read? (write x) = some x) (hy : read? (write y) = some y) (htext : write y = write x) :
    y = x := by
  rw [htext, hx] at hy
  exact (Option.some.inj hy).symm

/-- **Snapshots and plans can be told from their texts**: what is written is read back as it
was, so that no two of them have one text. -/
theorem stored_texts_read_back :
    (∀ s : Snapshot, s.vertexCount < UInt64.size → Snapshot.read? s.write = some s ∧
      ∀ s' : Snapshot, s'.vertexCount < UInt64.size → s'.write = s.write → s' = s) ∧
    ∀ p : Plan, p.Countable → Plan.read? p.write = some p ∧
      ∀ p' : Plan, p'.Countable → p'.write = p.write → p' = p := by
  constructor
  · intro s hs
    have hread := s.read?_write hs
    exact ⟨hread, fun s' hs' htext => eq_of_read_back hread (s'.read?_write hs') htext⟩
  · intro p hp
    have hread := p.read?_write hp
    exact ⟨hread, fun p' hp' htext => eq_of_read_back hread (p'.read?_write hp') htext⟩

/-- The highest slots, the wildcard and the lowest label among others, repeated edges out of
order and a stage without rules. -/
theorem stored_texts_read_back_extreme :
    let s : Snapshot := ⟨UInt64.size - 1, [⟨-1⟩, ⟨-32768⟩],
      [⟨4294967295, 0, ⟨32767⟩⟩, ⟨0, 0, ⟨-5⟩⟩, ⟨4294967295, 0, ⟨32767⟩⟩]⟩
    let p : Plan := ⟨[[⟨UInt64.size - 1, .backward, .diffMinus, .any⟩, ⟨0, .forward, .merged, ⟨7⟩⟩],
      []]⟩
    Snapshot.read? s.write = some s ∧ Plan.read? p.write = some p ∧
      ∀ p' : Plan, p'.Countable → p'.write = p.write → p' = p := by
  intro s p
  obtain ⟨hsnapshots, hplans⟩ := stored_texts_read_back
  exact ⟨(hsnapshots s (by decide)).1, hplans p (by decide)⟩

end DeltaMatch
