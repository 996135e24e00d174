import DeltaMatch.Label.Json
import DeltaMatch.Pattern.Basic

/-! The JSON form of plans and patterns. -/
namespace DeltaMatch

namespace Rule

/-- The JSON form of a rule. -/
def toJson (r : Rule) : Json :=
  .record [("prefix_slot", .nat r.slot), ("direction", .text r.direction.name),
    ("version", .text r.view.name), ("edge_type", r.filter.toJson)]

/-- Reads a rule, of which nothing may be missing. -/
def ofJson? (v : Json) : Option Rule :=
  match Json.fields? ["prefix_slot", "direction", "version", "edge_type"] v with
  | some [some slot, some direction, some view, some filter] => do
    let slot ← Json.nat64? slot
    let direction ← Json.name? Direction.ofName? direction
    let view ← Json.name? View.ofName? view
    let filter ← Label.ofJson? filter
    return ⟨slot, direction, view, filter⟩
  | _ => none

end Rule

namespace Plan

/-- The JSON form of a plan. -/
def toJson (p : Plan) : Json :=
  .record [("stages", .array (p.stages.map fun stage => .array (stage.map Rule.toJson)))]

/-- Reads a plan. -/
def ofJson? (v : Json) : Option Plan :=
  match Json.fields? ["stages"] v with
  | some [some stages] => (Json.list? (Json.list? Rule.ofJson?) stages).map Plan.mk
  | _ => none

/-- The text of a plan. -/
def write (p : Plan) : String := p.toJson.render

/-- Reads the text of a plan. -/
def read? (text : String) : Option Plan := (Json.parse? text).bind ofJson?

end Plan

/-- The JSON form of a plan with the order of its variables. -/
def OrderedPlan.toJson (p : OrderedPlan) : Json :=
  .record [("plan", p.plan.toJson), ("ordering", .array (p.ordering.map Json.nat))]

/-- The JSON form of a pattern. -/
def Pattern.toJson (p : Pattern) : Json :=
  .record [("vars", .array (p.vars.map Json.text)),
    ("edges", .array (p.edges.map fun e =>
      .record [("from", .nat e.source), ("to", .nat e.target), ("edge_type", e.filter.toJson)]))]

end DeltaMatch
