import DeltaMatch.Pattern.Planner
import DeltaMatch.Text.Blank
import DeltaMatch.Text.Numeral

/-! Edge specifications of the form `from:to` or `from:to:type`. With names on both
sides they make up a pattern, with vertex numbers they stand for edges of a graph.
Blanks around the parts are ignored. -/
namespace DeltaMatch

/-- Why a specification is turned down. -/
inductive SpecError where
  /-- Not two or three parts. -/
  | shape (spec : String)
  /-- A part that should name a variable is empty. -/
  | missingName (spec : String)
  /-- The type is not a non-negative number. -/
  | label (part spec : String)
  /-- An endpoint is not a vertex number. -/
  | vertex (part spec : String)
  deriving DecidableEq

/-- The wording of the cause. -/
def SpecError.message : SpecError → String
  | .shape spec => "'" ++ spec ++ "' is not of the form from:to[:type]"
  | .missingName spec => "pattern edge '" ++ spec ++ "' needs two variable names"
  | .label part spec => "'" ++ part ++ "' in '" ++ spec ++ "' is not a non-negative edge type"
  | .vertex part spec => "'" ++ part ++ "' in '" ++ spec ++ "' is not a vertex id"

namespace EdgeSpec

/-- The trimmed parts of a specification: source, target and perhaps a type. -/
def parts (spec : String) : Except SpecError (List Char × List Char × Option (List Char)) :=
  match (spec.toList.splitOn ':').map trim with
  | [source, target] => .ok (source, target, none)
  | [source, target, type] => .ok (source, target, some type)
  | _ => .error (.shape spec)

/-- Reads a label that may be stored. -/
def storedLabel? (cs : List Char) : Option Label :=
  (Numeral.int16? cs).bind fun code => if 0 ≤ code then some ⟨code⟩ else none

/-- Reads the type of a specification; without one the given label is meant. -/
def labelOf (spec : String) (absent : Label) : Option (List Char) → Except SpecError Label
  | none => .ok absent
  | some part =>
    match storedLabel? part with
    | some l => .ok l
    | none => .error (.label (String.ofList part) spec)

/-- Reads an endpoint of an edge of a graph. -/
def vertexOf (spec : String) (part : List Char) : Except SpecError VertexId :=
  match Numeral.word32? part with
  | some v => .ok v
  | none => .error (.vertex (String.ofList part) spec)

end EdgeSpec

/-- Reads an edge of a graph; without a type it carries the plain label. The type is
looked at before the endpoints. -/
def Edge.ofSpec (spec : String) : Except SpecError Edge := do
  let (source, target, type) ← EdgeSpec.parts spec
  let label ← EdgeSpec.labelOf spec .plain type
  let source ← EdgeSpec.vertexOf spec source
  let target ← EdgeSpec.vertexOf spec target
  return ⟨source, target, label⟩

/-- Reads a pattern edge; without a type it accepts every label. -/
def Pattern.addSpec (p : Pattern) (spec : String) : Except SpecError Pattern := do
  let (source, target, type) ← EdgeSpec.parts spec
  if source.isEmpty || target.isEmpty then throw (.missingName spec)
  let filter ← EdgeSpec.labelOf spec .any type
  return p.addEdge (String.ofList source) (String.ofList target) filter

/-- Why a list of specifications does not make up a pattern. -/
inductive PatternError where
  | spec (cause : SpecError)
  | plan (cause : PlanError)
  deriving DecidableEq

/-- Reads a pattern, which must be fit for planning. -/
def Pattern.ofSpecs (specs : List String) : Except PatternError Pattern :=
  match specs.foldlM Pattern.addSpec .empty with
  | .error e => .error (.spec e)
  | .ok p =>
    match p.validate with
    | .error e => .error (.plan e)
    | .ok () => .ok p

end DeltaMatch
