import DeltaMatch.Pattern.Basic

/-! The planner: an order for the variables of a pattern, and for each order a
plan with one rule per pattern edge. It takes for granted that edges name declared
variables, and panics where it looks up another one. -/
namespace DeltaMatch
namespace Pattern

/-! ## Ordering the variables -/

/-- Rejects patterns without edges and patterns with a self loop. -/
def checkEdges (p : Pattern) : Except PlanError Unit :=
  if p.edges.isEmpty then .error .emptyQuery
  else
    match p.edges.find? (fun e => e.source == e.target) with
    | some e =>
      match p.vars[e.source]? with
      | some name => .error (.selfLoop name)
      | none => .error .strayVariable
    | none => .ok ()

/-- Number of pattern edges between a variable and the listed ones. -/
def links (p : Pattern) (listed : List Nat) (v : Nat) : Nat :=
  p.edges.countP fun e =>
    (e.source == v && listed.contains e.target) || (e.target == v && listed.contains e.source)

/-- The variables that are not listed yet, in their order. -/
def unlisted (p : Pattern) (listed : List Nat) : List Nat :=
  (List.range p.vars.length).filter fun v => !listed.contains v

/-- The better of a variable and the best one before it: more links win, the
earlier variable wins a tie, and a variable without links is never chosen. -/
def betterLinked (p : Pattern) (listed : List Nat) (best : Option Nat) (v : Nat) : Option Nat :=
  match best with
  | none => if 0 < p.links listed v then some v else none
  | some b => if p.links listed b < p.links listed v then some v else some b

/-- The unlisted variable with the most edges into the listed ones. -/
def nextVar? (p : Pattern) (listed : List Nat) : Option Nat :=
  (p.unlisted listed).foldl (p.betterLinked listed) none

/-- Whether the count of the edges into the listed variables comes across a stray one: an edge is
looked at for each of its endpoints that is not listed yet. -/
def countsStray (p : Pattern) (listed : List Nat) : Bool :=
  (p.unlisted listed).any fun v =>
    p.edges.any fun e => (e.source == v || e.target == v) && p.isStray e

/-- Lists the given number of further variables, best linked first. -/
def completeOrdering (p : Pattern) : Nat → List Nat → Except PlanError (List Nat)
  | 0, listed => .ok listed
  | missing + 1, listed =>
    if p.countsStray listed then .error .strayVariable
    else
      match p.nextVar? listed with
      | some v => p.completeOrdering missing (listed ++ [v])
      | none => .error (.disconnected (p.varName ((p.unlisted listed).headD 0)))

/-- A variable order that starts with the endpoints of an edge. -/
def orderingFrom (p : Pattern) (edge : Nat) : Except PlanError (List Nat) := do
  p.checkEdges
  match p.edges[edge]? with
  | none => .error (.unknownEdge edge)
  | some e =>
    if p.isStray e then .error .strayVariable
    else p.completeOrdering (p.vars.length - 2) [e.source, e.target]

/-- Rejects patterns that are empty, loop on a variable or fall apart. -/
def validate (p : Pattern) : Except PlanError Unit := do
  let _ ← p.orderingFrom 0

/-! ## Planning an order -/

/-- Whether a list holds each number below a bound exactly once. -/
def isOrdering (n : Nat) (ordering : List Nat) : Bool :=
  ordering.length == n && (List.range n).all (ordering.contains ·)

/-- The rule of an edge and the stage that binds its later endpoint. Stages are
numbered from the one that binds slot 1. -/
def placedRule (ordering : List Nat) (e : PatternEdge) (view : View) : Nat × Rule :=
  let s := ordering.idxOf e.source
  let t := ordering.idxOf e.target
  if s < t then (t - 1, ⟨s, .forward, view, e.filter⟩)
  else (s - 1, ⟨t, .backward, view, e.filter⟩)

/-- The placed rules of all pattern edges, in the order of the edges. -/
def placedRules (p : Pattern) (ordering : List Nat) (views : List View) : List (Nat × Rule) :=
  List.zipWith (placedRule ordering) p.edges views

/-- The rules placed in a stage, the seed rule, when it is there, in front. -/
def stageRules (placed : List (Nat × Rule)) (seed stage : Nat) : Stage :=
  let here := placed.zipIdx.filter fun x => x.1.1 == stage
  (here.filter fun x => x.2 == seed).map (·.1.2) ++ (here.filter fun x => x.2 != seed).map (·.1.2)

/-- Why the seed or another edge cannot be placed. The edges are placed in their order,
so behind a seed that is out of place no edge is looked at. -/
def placementFault? (p : Pattern) (placed : List (Nat × Rule)) (seed : Nat) : Option PlanError :=
  match placed[seed]? with
  | none => some (.unknownEdge seed)
  | some (stage, _) =>
    if (p.edges.take (seed + 1)).any p.isStray then some .strayVariable
    else if stage ≠ 0 then some (.seedNotFirst seed)
    else if p.edges.any p.isStray then some .strayVariable
    else none

/-- The plan that binds the variables in the given order, reads each pattern edge
from its view, and is seeded from one of the edges. -/
def plan (p : Pattern) (ordering : List Nat) (views : List View) (seed : Nat) :
    Except PlanError OrderedPlan := do
  p.checkEdges
  if views.length ≠ p.edges.length then
    throw (.versionCount p.edges.length views.length)
  if !isOrdering p.vars.length ordering then
    throw (.invalidOrdering p.vars.length)
  let placed := p.placedRules ordering views
  match p.placementFault? placed seed with
  | some fault => throw fault
  | none => pure ()
  let stages := (List.range (ordering.length - 1)).map (stageRules placed seed)
  match stages.findIdx? (·.isEmpty) with
  | some stage => throw (.disconnected (p.varName (ordering.getD (stage + 1) 0)))
  | none => pure ()
  Plan.validate ⟨stages⟩
  return ⟨⟨stages⟩, ordering⟩

/-- The plan over the merged view, seeded from the first pattern edge. -/
def defaultPlan (p : Pattern) : Except PlanError OrderedPlan := do
  let ordering ← p.orderingFrom 0
  p.plan ordering (p.edges.map fun _ => .merged) 0

/-- The view of each pattern edge when one of them reads a log: the edges before
it read the merged view and the edges after it the permanent one. -/
def deltaViews (diff : View) (edges edge : Nat) : List View :=
  (List.range edges).map fun other =>
    if other < edge then .merged else if other = edge then diff else .permanent

end Pattern
end DeltaMatch
