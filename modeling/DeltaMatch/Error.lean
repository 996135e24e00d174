import DeltaMatch.Edge

/-! The causes for which a plan, a pattern or a request to the store is turned
down. Each cause is a constructor; its code and its wording are functions on it.
Two of the causes are panics: nothing reports them, they end the program. -/
namespace DeltaMatch

/-- Why a plan cannot be executed or a pattern cannot be planned. -/
inductive PlanError where
  | emptyPlan
  | emptyStage (stage : Nat)
  | seedSlot (slot : Nat)
  | slotOutOfRange (stage rule slot width : Nat)
  | diffNotSeed (stage rule : Nat) (view : View)
  | emptyQuery
  | selfLoop (name : String)
  | disconnected (name : String)
  | unknownEdge (edge : Nat)
  | invalidOrdering (expected : Nat)
  | seedNotFirst (edge : Nat)
  | versionCount (expected found : Nat)
  /-- A panic: an edge names a variable by a number that no variable has. -/
  | strayVariable
  deriving DecidableEq

namespace PlanError

/-- Whether the cause is not reported but ends the program. -/
def isPanic : PlanError → Bool
  | strayVariable => true
  | _ => false

/-- The machine-readable code of the cause. A panic has none of its own. -/
def code : PlanError → String
  | emptyPlan => "EmptyPlan"
  | emptyStage _ => "EmptyStage"
  | seedSlot _ => "SeedSlot"
  | slotOutOfRange .. => "SlotOutOfRange"
  | diffNotSeed .. => "DiffNotSeed"
  | emptyQuery => "EmptyQuery"
  | selfLoop _ => "SelfLoop"
  | disconnected _ => "Disconnected"
  | unknownEdge _ => "UnknownEdge"
  | invalidOrdering _ => "InvalidOrdering"
  | seedNotFirst _ => "SeedNotFirst"
  | versionCount .. => "VersionCount"
  | strayVariable => "panic"

/-- The wording of the cause. -/
def message : PlanError → String
  | emptyPlan => "plan has no stages"
  | emptyStage stage => s!"stage {stage} has no intersection rules"
  | seedSlot slot => s!"seed rule must read prefix slot 0 (got {slot})"
  | slotOutOfRange stage rule slot width =>
    s!"stage {stage} rule {rule} reads slot {slot} but the prefix has {width} slots"
  | diffNotSeed stage rule view =>
    s!"stage {stage} rule {rule} uses {view.name}, which is only allowed on the seed rule"
  | emptyQuery => "query has no edges"
  | selfLoop v => "self loop on variable '" ++ v ++ "' is not supported"
  | disconnected v =>
    "variable '" ++ v ++ "' is not connected to the variables ordered before it"
  | unknownEdge edge => s!"query has no edge {edge}"
  | invalidOrdering expected =>
    s!"ordering must list each of the {expected} query variables exactly once"
  | seedNotFirst edge => s!"seed edge {edge} does not connect the first two ordered variables"
  | versionCount expected found => s!"expected {expected} edge versions (got {found})"
  | strayVariable => "index out of bounds"

end PlanError

/-- Why the store or an executor turns a request down. -/
inductive GraphError where
  /-- A vertex beyond the bound of the graph, with the highest valid vertex. -/
  | vertexOutOfBounds (vertex : VertexId) (highest : Option VertexId)
  /-- A position beyond the end of a neighbour list. -/
  | indexOutOfBounds (index size : Nat)
  /-- A log was asked of a view that has none. -/
  | noEditLog
  /-- A log was asked for the neighbours of a vertex. -/
  | notIndexable
  /-- The wildcard was given as the label of an edge. -/
  | wildcardEdge
  /-- The wildcard was given as the label of a vertex. -/
  | wildcardVertex
  /-- A stored vertex carries the wildcard. -/
  | wildcardAt (vertex : Nat)
  /-- More vertices than there are vertex numbers. -/
  | tooManyVertices (count : Nat)
  /-- Delta plans were asked for a view that is not a log. -/
  | notADiff (view : View)
  /-- A sink turned a batch down. -/
  | batchRejected (batch : Nat)
  /-- A plan or a pattern was turned down. -/
  | plan (cause : PlanError)
  /-- A panic: a batch was to be reserved that is larger than any allocation. -/
  | batchTooLarge
  deriving DecidableEq

namespace GraphError

/-- Whether the cause is not reported but ends the program. -/
def isPanic : GraphError → Bool
  | plan cause => cause.isPanic
  | batchTooLarge => true
  | _ => false

/-- The machine-readable code of the cause. A panic has none of its own. -/
def code : GraphError → String
  | vertexOutOfBounds .. => "VertexOutOfBounds"
  | indexOutOfBounds .. => "IndexOutOfBounds"
  | noEditLog | notIndexable => "Unsupported"
  | wildcardEdge | wildcardVertex | wildcardAt _ | tooManyVertices _ | notADiff _
  | batchRejected _ => "InvalidArgument"
  | plan cause => cause.code
  | batchTooLarge => "panic"

/-- How a bound is written: the highest vertex, or nothing for an empty graph. -/
def boundText : Option VertexId → String
  | none => "None"
  | some v => "Some(VertexId(" ++ toString v.toNat ++ "))"

/-- The wording of the cause. -/
def message : GraphError → String
  | vertexOutOfBounds vertex highest =>
    s!"vertex {vertex.toNat} out of bounds (highest vertex id is {boundText highest})"
  | indexOutOfBounds index size =>
    s!"index {index} out of bounds for adjacency list of length {size}"
  | noEditLog => "unsupported operation: only diff versions expose an edge log"
  | notIndexable =>
    "unsupported operation: diff versions are enumerable, not indexable by vertex"
  | wildcardEdge => "invalid argument: the wildcard edge type cannot be stored"
  | wildcardVertex => "invalid argument: the wildcard vertex type cannot be assigned"
  | wildcardAt vertex => s!"invalid argument: vertex {vertex} carries the wildcard type"
  | tooManyVertices count =>
    s!"invalid argument: vertex count {count} exceeds the 32-bit vertex id space"
  | notADiff view => s!"invalid argument: delta plans read a diff log, not {view.word}"
  | batchRejected batch => s!"invalid argument: sink rejected batch {batch}"
  | plan cause => "invalid plan: " ++ cause.message
  | batchTooLarge => "capacity overflow"

end GraphError
end DeltaMatch
