import DeltaMatch.DeltaJoin

/-! Standing queries: registered patterns whose sinks receive, with every commit
made through the registry, the matches that appeared and disappeared. -/
namespace DeltaMatch

/-- The number that a registration is known by. -/
abbrev QueryId := Nat

/-- How the number of a registration is written. -/
def queryIdText (id : QueryId) : String := "q" ++ toString id

/-- A registered pattern and the state of its sink. -/
structure Registration (σ : Type) where
  id : QueryId
  name : String
  pattern : Pattern
  sink : σ

/-- The registered patterns, in the order of registration. -/
structure StandingQueries (σ : Type) where
  nextId : QueryId
  registrations : List (Registration σ)
  batchSize : Nat

/-- What one application of the pending batch amounted to. -/
structure ApplyReport where
  queries : Nat
  emerged : Nat
  deleted : Nat
  commit : CommitStats
  deriving DecidableEq

namespace StandingQueries

variable {σ : Type}

/-- No registrations. -/
def empty (batchSize : Nat) : StandingQueries σ := ⟨0, [], batchSize⟩

/-- Registers a pattern, unless it is not valid. A valid one can be planned, if its
edges name declared variables. -/
def register (q : StandingQueries σ) (name : String) (pattern : Pattern) (sink : σ) :
    Except GraphError (StandingQueries σ × QueryId) :=
  match pattern.validate with
  | .error e => .error (.plan e)
  | .ok () =>
    .ok ({ q with
            nextId := q.nextId + 1
            registrations := q.registrations ++ [⟨q.nextId, name, pattern, sink⟩] },
          q.nextId)

/-- Removes a registration and tells whether it was there. -/
def deregister (q : StandingQueries σ) (id : QueryId) : StandingQueries σ × Bool :=
  ({ q with registrations := q.registrations.filter (·.id ≠ id) },
    q.registrations.any (·.id = id))

/-- Number of registrations. -/
def size (q : StandingQueries σ) : Nat := q.registrations.length

/-- The names of the registered patterns. -/
def names (q : StandingQueries σ) : List (QueryId × String) :=
  q.registrations.map fun r => (r.id, r.name)

/-- The changes of every registered pattern under the pending batch, and the
lookups made to find them. -/
def deltas (g : Graph) (batchSize : Nat) :
    List (Registration σ) → Except GraphError (List ChangeSet) × Lookups
  | [] => (.ok [], {})
  | r :: rest =>
    let outcome := r.pattern.executeDelta g batchSize ChangeSet.collect {}
    match outcome.result with
    | .error e => (.error e, outcome.lookups)
    | .ok _ =>
      let (others, lookups) := deltas g batchSize rest
      (others.map (outcome.sink :: ·), outcome.lookups.plus lookups)

/-- Delivers changes to the sinks of the registrations, each sink up to the first
batch it turns down, and gives the first of their errors. -/
def deliver (sink : ChangeSink σ) (batchSize : Nat) :
    List (Registration σ) → List ChangeSet → List (Registration σ) × Option GraphError
  | r :: rest, c :: changes =>
    let (s, error) := sink.offerAll r.sink (changeBatches batchSize c)
    let (others, laterError) := deliver sink batchSize rest changes
    ({ r with sink := s } :: others, error.or laterError)
  | registrations, _ => (registrations, none)

/-- What an application leaves behind. -/
structure Applied (σ : Type) where
  result : Except GraphError ApplyReport
  registry : StandingQueries σ
  graph : CountedGraph

/-- Computes the changes of every registered pattern, commits the graph and then
delivers the changes. When some change cannot be computed, be it for a panic, nothing
is delivered and nothing committed. A sink that turns a batch down misses the rest of its changes;
the other sinks receive theirs. -/
def apply (q : StandingQueries σ) (sink : ChangeSink σ) (c : CountedGraph) : Applied σ :=
  let due := if c.graph.hasPending then q.registrations else []
  let (computed, lookups) := deltas c.graph q.batchSize due
  let counted := c.recordLookups lookups
  match computed with
  | .error e => ⟨.error e, q, counted⟩
  | .ok changes =>
    let (committed, commit) := counted.commit
    let (registrations, error) := deliver sink q.batchSize q.registrations changes
    let report : ApplyReport :=
      { queries := changes.length
        emerged := changes.foldl (fun n c => n + c.emerged.length) 0
        deleted := changes.foldl (fun n c => n + c.deleted.length) 0
        commit }
    ⟨match error with
      | some e => .error e
      | none => .ok report,
      { q with registrations }, committed⟩

/-- A one-line summary of the registry. -/
def describe (q : StandingQueries σ) : String :=
  "ContinuousMatches \x7b queries: " ++ toString q.size ++
    ", options: JoinOptions \x7b batch_size: " ++ toString q.batchSize ++ " \x7d \x7d"

end StandingQueries
end DeltaMatch
