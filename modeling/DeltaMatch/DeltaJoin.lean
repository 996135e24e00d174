import DeltaMatch.Join
import DeltaMatch.Pattern.Planner
import Std.Data.HashMap

/-! Incremental matches. For a pattern with `n` edges the change of its matches is
a sum of `n` terms: the term of an edge reads that edge from a log, the edges before
it from the merged view and the edges after it from the permanent view. The terms
are evaluated for the added and for the deleted edges, and what they yield is netted
match by match. -/
namespace DeltaMatch

/-- Work of one delta evaluation. -/
structure DeltaStats where
  /-- Delta plans executed. -/
  plansRun : Nat := 0
  /-- Matches reported as emerged. -/
  emerged : Nat := 0
  /-- Matches reported as deleted. -/
  deleted : Nat := 0
  /-- Work summed over the executed plans. -/
  join : JoinStats := {}
  deriving DecidableEq

namespace Pattern

/-- One plan per pattern edge, seeded from a log on that edge. -/
def deltaPlans (p : Pattern) (diff : View) : Except GraphError (List OrderedPlan) :=
  if diff.isIndexable then .error (.notADiff diff)
  else
    (List.range p.edges.length).mapM fun edge =>
      match p.orderingFrom edge with
      | .error e => .error (.plan e)
      | .ok ordering =>
        (p.plan ordering (deltaViews diff p.edges.length edge) edge).mapError .plan

end Pattern

/-- Ascending lexicographic order of matches. -/
def sortTuples (ts : List Tuple) : List Tuple := ts.mergeSort fun a b => decide (a ≤ b)

/-- Cuts a list into chunks of a size, the last one possibly shorter; size zero
counts as one. -/
def chunksOf {α : Type} (size : Nat) : List α → List (List α)
  | [] => []
  | x :: rest => (x :: rest.take (size - 1)) :: chunksOf size (rest.drop (size - 1))
termination_by xs => xs.length
decreasing_by simp only [List.length_drop, List.length_cons]; omega

/-- The batches in which a set of changes is delivered: sorted, the emerged matches
before the deleted ones. -/
def changeBatches (size : Nat) (c : ChangeSet) : List (Change × List Tuple) :=
  (chunksOf size (sortTuples c.emerged)).map (Change.emerged, ·) ++
    (chunksOf size (sortTuples c.deleted)).map (Change.deleted, ·)

namespace DeltaJoin

/-- Signed numbers of matches. -/
abbrev Counts := Std.HashMap Tuple Int

/-- Adds a signed unit for a match. -/
def tally (sign : Int) (counts : Counts) (t : Tuple) : Counts :=
  counts.insert t (counts.getD t 0 + sign)

/-- Counts the matches of a plan in the order of its variables. -/
def counter (plan : OrderedPlan) (sign : Int) : TupleSink Counts := fun counts batch =>
  ((batch.map plan.toDeclarationOrder).foldl (tally sign) counts, none)

/-- The state of a delta evaluation. -/
structure Progress where
  counts : Counts := ∅
  plansRun : Nat := 0
  join : JoinStats := {}
  lookups : Lookups := {}

/-- Executes plans one after the other, adding up what they yield. -/
def runPlans (g : Graph) (size : Nat) (sign : Int) :
    List OrderedPlan → Progress → Except GraphError Unit × Progress
  | [], p => (.ok (), p)
  | plan :: rest, p =>
    let run := plan.plan.execute g size (counter plan sign) p.counts
    let p := { p with counts := run.sink, lookups := p.lookups.plus run.lookups }
    match run.result with
    | .error e => (.error e, p)
    | .ok stats =>
      runPlans g size sign rest
        { p with plansRun := p.plansRun + 1, join := p.join.plus stats }

/-- Evaluates the delta plans of one log, unless the log is empty. -/
def runDiff (g : Graph) (pattern : Pattern) (size : Nat) (diff : View) (sign : Int)
    (p : Progress) : Except GraphError Unit × Progress :=
  match g.diff diff with
  | .error e => (.error e, p)
  | .ok log =>
    if log.isEmpty then (.ok (), p)
    else
      match pattern.deltaPlans diff with
      | .error e => (.error e, p)
      | .ok plans => runPlans g size sign plans p

/-- Evaluates the delta plans of both logs. -/
def runDiffs (g : Graph) (pattern : Pattern) (size : Nat) : Except GraphError Unit × Progress :=
  match runDiff g pattern size .diffPlus 1 {} with
  | (.error e, p) => (.error e, p)
  | (.ok (), p) => runDiff g pattern size .diffMinus (-1) p

/-- The matches with a positive and those with a negative count. -/
def net (counts : Counts) : ChangeSet where
  emerged := (counts.toList.filter fun x => 0 < x.2).map (·.1)
  deleted := (counts.toList.filter fun x => x.2 < 0).map (·.1)

/-- What a delta evaluation leaves behind. -/
structure Outcome (σ : Type) where
  result : Except GraphError DeltaStats
  sink : σ
  lookups : Lookups

end DeltaJoin

namespace Pattern

/-- Pushes the matches that appear or disappear with the pending batch of a graph
to a sink, each side in ascending order, the emerged matches first. -/
def executeDelta {σ : Type} (pattern : Pattern) (g : Graph) (batchSize : Nat)
    (sink : ChangeSink σ) (s : σ) : DeltaJoin.Outcome σ :=
  match pattern.validate with
  | .error e => ⟨.error (.plan e), s, {}⟩
  | .ok () =>
    match DeltaJoin.runDiffs g pattern batchSize with
    | (.error e, p) => ⟨.error e, s, p.lookups⟩
    | (.ok (), p) =>
      let changes := DeltaJoin.net p.counts
      match sink.offerAll s (changeBatches batchSize changes) with
      | (s, some e) => ⟨.error e, s, p.lookups⟩
      | (s, none) =>
        ⟨.ok ⟨p.plansRun, changes.emerged.length, changes.deleted.length, p.join⟩, s, p.lookups⟩

/-- Collects the matches that appear or disappear with the pending batch. -/
def collectDelta (pattern : Pattern) (g : Graph) (batchSize : Nat) :
    Except GraphError ChangeSet :=
  let outcome := pattern.executeDelta g batchSize ChangeSet.collect {}
  outcome.result.map fun _ => outcome.sink

end Pattern
end DeltaMatch
