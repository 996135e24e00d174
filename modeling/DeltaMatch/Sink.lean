import DeltaMatch.Error

/-! Sinks receive matches batch by batch. A sink is a state and a function that
offers it a batch; it may turn a batch down for a reason of its own. -/
namespace DeltaMatch

/-- Whether a match appeared or disappeared. -/
inductive Change where
  /-- The match holds after the commit and not before. -/
  | emerged
  /-- The match held before the commit and not after. -/
  | deleted
  deriving DecidableEq

/-- The name of a change. -/
def Change.name : Change → String
  | emerged => "Emerged"
  | deleted => "Deleted"

/-- Offers a batch to a sink and gives its next state, with an error when the
batch was turned down. -/
abbrev Sink (σ β : Type) := σ → β → σ × Option GraphError

/-- A sink for batches of matches. -/
abbrev TupleSink (σ : Type) := Sink σ (List Tuple)

/-- A sink for batches of changed matches. -/
abbrev ChangeSink (σ : Type) := Sink σ (Change × List Tuple)

namespace Sink

/-- Offers batches in order until one is turned down. -/
def offerAll {σ β : Type} (sink : Sink σ β) : σ → List β → σ × Option GraphError
  | s, [] => (s, none)
  | s, b :: rest =>
    match sink s b with
    | (s, none) => offerAll sink s rest
    | (s, some e) => (s, some e)

end Sink

/-- Keeps every match in the order of arrival. -/
def collectTuples : TupleSink (Array Tuple) := fun rows batch => (rows ++ batch, none)

/-- Numbers of matches and of batches received. -/
structure BatchCount where
  tuples : Nat := 0
  batches : Nat := 0
  deriving DecidableEq

/-- Counts matches without keeping them. -/
def countTuples : TupleSink BatchCount := fun c batch =>
  (⟨c.tuples + batch.length, c.batches + 1⟩, none)

/-- Changed matches, by kind of change. -/
structure ChangeSet where
  emerged : List Tuple := []
  deleted : List Tuple := []
  deriving DecidableEq

namespace ChangeSet

/-- Whether nothing changed. -/
def isEmpty (c : ChangeSet) : Bool := c.emerged.isEmpty && c.deleted.isEmpty

/-- Keeps every change in the order of arrival. -/
def collect : ChangeSink ChangeSet := fun c (change, batch) =>
  match change with
  | .emerged => ({ c with emerged := c.emerged ++ batch }, none)
  | .deleted => ({ c with deleted := c.deleted ++ batch }, none)

end ChangeSet

/-- A sink that keeps whole batches and turns some of them down by their number,
counted over all batches ever offered. -/
structure Recorder (β : Type) where
  offered : Nat := 0
  rejected : List Nat := []
  kept : Array β := #[]

namespace Recorder

/-- Keeps or turns down the next batch. -/
def record {β : Type} : Sink (Recorder β) β := fun r batch =>
  let ⟨offered, rejected, kept⟩ := r
  if rejected.contains offered then
    (⟨offered + 1, rejected, kept⟩, some (.batchRejected offered))
  else (⟨offered + 1, rejected, kept.push batch⟩, none)

end Recorder

/-- A subscriber to changed matches, which collects them or records its batches. -/
inductive Subscriber where
  | collector (changes : ChangeSet)
  | recorder (log : Recorder (Change × List Tuple))

namespace Subscriber

/-- Passes a batch on to what the subscriber is. -/
def receive : ChangeSink Subscriber := fun s batch =>
  match s with
  | .collector c =>
    let (c, e) := ChangeSet.collect c batch
    (.collector c, e)
  | .recorder r =>
    let (r, e) := Recorder.record r batch
    (.recorder r, e)

/-- Forgets what was received. Batches keep being numbered from where they are. -/
def drained : Subscriber → Subscriber
  | .collector _ => .collector {}
  | .recorder r => .recorder { r with kept := #[] }

end Subscriber
end DeltaMatch
