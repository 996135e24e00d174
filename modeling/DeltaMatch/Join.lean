import DeltaMatch.Graph.Counters
import DeltaMatch.Plan
import DeltaMatch.Sink
import Std.Data.HashSet

/-! The generic join. Prefixes are seeded from an enumeration of edges and extended
by one slot per stage. An extension is driven by the shortest neighbour list of its
stage and narrowed by intersection with the others. Prefixes travel between the
stages, and matches to the sink, in batches of a fixed size.

Relations are sets of vertex pairs: each pair seeds once, however many labelled
edges join it. A seed that reads a log stands for the pairs whose membership in the
relation of its filter has changed. -/
namespace DeltaMatch

/-- Work done by one execution. -/
structure JoinStats where
  /-- Edges read from the enumeration of the seed. -/
  seedsScanned : Nat := 0
  /-- Prefixes handed to a later stage. -/
  prefixesExtended : Nat := 0
  /-- Intersections of sorted lists. -/
  intersections : Nat := 0
  /-- Matches offered to the sink. -/
  tuplesEmitted : Nat := 0
  deriving DecidableEq

/-- Sums the work of two executions. -/
def JoinStats.plus (a b : JoinStats) : JoinStats :=
  ⟨a.seedsScanned + b.seedsScanned, a.prefixesExtended + b.prefixesExtended,
    a.intersections + b.intersections, a.tuplesEmitted + b.tuplesEmitted⟩

/-- The batch size used when none is chosen. -/
def defaultBatchSize : Nat := 64

/-- A chosen batch size; zero counts as one. -/
def batchSizeOf (n : Nat) : Nat := max n 1

/-- The largest batch that can be reserved: a tuple takes 24 bytes, and an allocation at most
9223372036854775807 of them. -/
def batchLimit : Nat := 384307168202282325

namespace Join

/-- The state of an execution. -/
structure Progress (σ : Type) where
  sink : σ
  stats : JoinStats := {}
  lookups : Lookups := {}

/-- A step of an execution; what it did before it failed stays done. -/
abbrev Step (σ α : Type) := ExceptT GraphError (StateM (Progress σ)) α

/-- Adds to the work counters. -/
def work {σ : Type} (change : JoinStats → JoinStats) : Step σ Unit :=
  modify fun p => { p with stats := change p.stats }

/-- Fails a step with the error of a pure computation. -/
def orThrow {σ α : Type} : Except GraphError α → Step σ α
  | .ok a => pure a
  | .error e => throw e

/-- Looks up a neighbour list. -/
def lookup {σ : Type} (g : Graph) (v : VertexId) (d : Direction) (view : View) :
    Step σ NeighbourList := do
  let list ← orThrow (g.neighbours v d view)
  modify fun p => { p with lookups := p.lookups.record view }
  return list

/-- The vertex in a slot of a prefix. -/
def slotOf (t : Tuple) (slot : Nat) : Except GraphError VertexId :=
  match t[slot]? with
  | some v => .ok v
  | none => .error (.indexOutOfBounds slot t.length)

/-- The list that a rule reads for a prefix. -/
def ruleList {σ : Type} (g : Graph) (t : Tuple) (r : Rule) : Step σ NeighbourList := do
  let v ← orThrow (slotOf t r.slot)
  lookup g v r.direction r.view

/-! ## Batches -/

/-- Offers a batch to the sink. -/
def Progress.offer {σ : Type} (sink : TupleSink σ) (batch : List Tuple) (p : Progress σ) :
    Option GraphError × Progress σ :=
  let ⟨s, stats, lookups⟩ := p
  let (s, rejection) := sink s batch
  (rejection, ⟨s, stats, lookups⟩)

/-- Offers completed matches to the sink. -/
def emit {σ : Type} (sink : TupleSink σ) (batch : List Tuple) : Step σ Unit := do
  work fun s => { s with tuplesEmitted := s.tuplesEmitted + batch.length }
  match ← modifyGet (Progress.offer sink batch) with
  | none => return
  | some e => throw e

/-- Appends a tuple to the batch under way and passes the batch on when it is full. -/
def feed {σ : Type} (size : Nat) (next : List Tuple → Step σ Unit) (batch : Array Tuple)
    (t : Tuple) : Step σ (Array Tuple) := do
  let batch := batch.push t
  if batch.size = size then
    next batch.toList
    return #[]
  else return batch

/-- Passes on what is left of a batch. -/
def flush {σ : Type} (next : List Tuple → Step σ Unit) (batch : Array Tuple) : Step σ Unit :=
  if batch.isEmpty then return else next batch.toList

/-! ## Extension -/

/-- The position of the first shortest list. -/
def driverOf (lists : List NeighbourList) : Nat :=
  lists.findIdx fun l => lists.all fun l' => l.size ≤ l'.size

/-- Intersects the candidates with one list after the other until none are left,
and counts the intersections. -/
def narrow : List (Rule × NeighbourList) → List VertexId → List VertexId × Nat
  | [], candidates => (candidates, 0)
  | (r, l) :: rest, candidates =>
    if candidates.isEmpty then (candidates, 0)
    else
      let (left, n) := narrow rest (l.intersection candidates r.filter)
      (left, n + 1)

/-- The vertices that satisfy all rules, given the list of each rule, and the
number of intersections made. -/
def candidatesOf (stage : Stage) (lists : List NeighbourList) : List VertexId × Nat :=
  let ruled := stage.zip lists
  let driver := driverOf lists
  match ruled[driver]? with
  | none => ([], 0)
  | some (r, l) => narrow (ruled.eraseIdx driver) (l.filteredIds r.filter)

/-- The vertices that extend a prefix by one slot. -/
def extensions {σ : Type} (g : Graph) (stage : Stage) (t : Tuple) : Step σ (List VertexId) := do
  work fun s => { s with prefixesExtended := s.prefixesExtended + 1 }
  let lists ← stage.mapM (ruleList g t)
  let (vertices, n) := candidatesOf stage lists
  work fun s => { s with intersections := s.intersections + n }
  return vertices

/-- Runs a batch of prefixes through the remaining stages. -/
def dispatch {σ : Type} (g : Graph) (size : Nat) (sink : TupleSink σ) :
    List Stage → List Tuple → Step σ Unit
  | [], batch => emit sink batch
  | stage :: rest, batch => do
    let left ← batch.foldlM (fun out t => do
      let vertices ← extensions g stage t
      vertices.foldlM (fun out v => feed size (dispatch g size sink rest) out (t ++ [v])) out) #[]
    flush (dispatch g size sink rest) left

/-! ## Seeds -/

/-- The elements of a list without those that occurred before. -/
def firstOccurrences {α : Type} [BEq α] [Hashable α] (xs : List α) : List α :=
  go ∅ xs
where
  go (seen : Std.HashSet α) : List α → List α
    | [] => []
    | x :: rest => if seen.contains x then go seen rest else x :: go (seen.insert x) rest

/-- The pairs of enumerated edges, each of them once. A state lists the edges of a pair next to
each other; in a log there may be others in between. -/
def distinctPairs (view : View) (edges : List Edge) : List (VertexId × VertexId) :=
  let pairs := edges.map Edge.pair
  if view.isIndexable then pairs.eraseReps else firstOccurrences pairs

/-- The edges that the seed enumerates. -/
def seedEdges (g : Graph) (seed : Rule) : List Edge :=
  g.edges seed.view seed.direction (.onLabel seed.filter)

/-- Whether a pair joined in the view of the seed counts as changed: for a log it
must be unjoined in the state on the other side. -/
def isChanged {σ : Type} (g : Graph) (seed : Rule) (pair : VertexId × VertexId) :
    Step σ Bool := do
  match seed.view with
  | .permanent | .merged => return true
  | .diffPlus =>
    let list ← lookup g pair.1 .forward .permanent
    return !list.contains pair.2 seed.filter
  | .diffMinus =>
    let list ← lookup g pair.1 .forward .merged
    return !list.contains pair.2 seed.filter

/-- The prefix of a seed pair: a backward seed binds the target first. -/
def seedPrefix (d : Direction) (pair : VertexId × VertexId) : Tuple :=
  match d with
  | .forward => [pair.1, pair.2]
  | .backward => [pair.2, pair.1]

/-- Whether the vertex in slot 1 satisfies the other rules of stage 0. -/
def satisfies {σ : Type} (g : Graph) (t : Tuple) : List Rule → Step σ Bool
  | [] => return true
  | r :: rest => do
    let v ← orThrow (slotOf t 1)
    let list ← ruleList g t r
    if list.contains v r.filter then satisfies g t rest else return false

/-- Runs the seeds of stage 0 through the remaining stages. -/
def runSeeds {σ : Type} (g : Graph) (size : Nat) (sink : TupleSink σ) (seed : Rule)
    (checks : List Rule) (rest : List Stage) : Step σ Unit := do
  let edges := seedEdges g seed
  work fun s => { s with seedsScanned := s.seedsScanned + edges.length }
  let left ← (distinctPairs seed.view edges).foldlM (fun out pair => do
    if ← isChanged g seed pair then
      let t := seedPrefix seed.direction pair
      if ← satisfies g t checks then feed size (dispatch g size sink rest) out t
      else return out
    else return out) #[]
  flush (dispatch g size sink rest) left

/-- Runs a plan; a faulty one is turned down before the graph is read. So is the run of a valid
one, by a panic, if the first batch is too large to be reserved. The batches after it are as large,
so there the question does not come up again. -/
def run {σ : Type} (g : Graph) (plan : Plan) (size : Nat) (sink : TupleSink σ) :
    Step σ Unit :=
  match plan.fault?, plan.stages with
  | some fault, _ => throw (.plan fault)
  | none, (seed :: checks) :: rest =>
    if batchLimit < size then throw .batchTooLarge
    else runSeeds g size sink seed checks rest
  | none, _ => throw (.plan .emptyPlan)

/-- What an execution leaves behind. -/
structure Outcome (σ : Type) where
  result : Except GraphError JoinStats
  sink : σ
  lookups : Lookups

end Join

/-- Executes a plan against a graph and pushes its matches, in slot order, to a
sink. -/
def Plan.execute {σ : Type} (plan : Plan) (g : Graph) (batchSize : Nat) (sink : TupleSink σ)
    (s : σ) : Join.Outcome σ :=
  let (result, p) := (Join.run g plan (batchSizeOf batchSize) sink).run { sink := s }
  ⟨result.map fun _ => p.stats, p.sink, p.lookups⟩

end DeltaMatch
