import DeltaMatch.Error

/-! Plans: ordered stages of intersection rules. Stage 0 binds slots 0 and 1 of a
tuple from an enumeration of edges, and every later stage binds one more slot. -/
namespace DeltaMatch

/-- One relation that a new vertex must satisfy. Read forward, the new vertex is
an out-neighbour of the vertex in the slot; read backward, an in-neighbour. -/
structure Rule where
  slot : Nat
  direction : Direction
  view : View
  filter : Label
  deriving DecidableEq

/-- The rules that jointly bind the next slot. -/
abbrev Stage := List Rule

/-- The stages in the order of their execution. -/
structure Plan where
  stages : List Stage
  deriving DecidableEq

/-- A plan and, slot by slot, the pattern variable that the slot binds. -/
structure OrderedPlan where
  plan : Plan
  ordering : List Nat
  deriving DecidableEq

namespace Plan

/-- Number of vertices in each emitted tuple. -/
def width (p : Plan) : Nat := p.stages.length + 1

/-- The first fault of one rule. Only the very first rule of a plan, the seed,
may read a log, and it must read slot 0; a rule of stage `s` may read the slots
up to `s`. -/
def ruleFault? (stage position : Nat) (r : Rule) : Option PlanError :=
  let isSeed := stage = 0 ∧ position = 0
  if isSeed ∧ r.slot ≠ 0 then some (.seedSlot r.slot)
  else if stage + 1 ≤ r.slot then some (.slotOutOfRange stage position r.slot (stage + 1))
  else if ¬ isSeed ∧ ¬ r.view.isIndexable then some (.diffNotSeed stage position r.view)
  else none

/-- The first fault among the rules of a stage from a position on. -/
def rulesFault? (stage : Nat) : Nat → List Rule → Option PlanError
  | _, [] => none
  | position, r :: rest =>
    match ruleFault? stage position r with
    | some fault => some fault
    | none => rulesFault? stage (position + 1) rest

/-- The first fault of one stage. -/
def stageFault? (stage : Nat) (rules : Stage) : Option PlanError :=
  if rules.isEmpty then some (.emptyStage stage) else rulesFault? stage 0 rules

/-- The first fault among the stages from a number on. -/
def stagesFault? : Nat → List Stage → Option PlanError
  | _, [] => none
  | stage, rules :: rest =>
    match stageFault? stage rules with
    | some fault => some fault
    | none => stagesFault? (stage + 1) rest

/-- The first fault of a plan, if it has any. -/
def fault? (p : Plan) : Option PlanError :=
  if p.stages.isEmpty then some .emptyPlan else stagesFault? 0 p.stages

/-- Accepts the plans whose execution cannot leave their own slots. -/
def validate (p : Plan) : Except PlanError Unit :=
  match p.fault? with
  | some fault => .error fault
  | none => .ok ()

end Plan

namespace OrderedPlan

/-- Reorders a tuple from slot order into the order of the variables. Slots
without a variable in range, and variables without a slot, leave vertex 0. -/
def toDeclarationOrder (p : OrderedPlan) (t : Tuple) : Tuple :=
  (p.ordering.zip t).foldl (fun out (v, vertex) => out.set v vertex)
    (List.replicate t.length 0)

end OrderedPlan
end DeltaMatch
