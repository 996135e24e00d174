import DeltaMatch.Edge
import Std.Data.HashMap

/-! Edit logs: the pending edges in the order of their edits. A position index
makes membership and cancellation cheap. A removed edge leaves an empty slot
behind; the slots are packed once more than half of them are empty, unless there
are only a few. -/
namespace DeltaMatch

/-- A set of edges in the order in which they were logged. -/
structure EditLog where
  slots : Array (Option Edge)
  positions : Std.HashMap Edge Nat

namespace EditLog

/-- The log without edges. -/
def empty : EditLog := ⟨#[], ∅⟩

instance : Inhabited EditLog := ⟨empty⟩

/-- Number of logged edges. -/
def size (log : EditLog) : Nat := log.positions.size

/-- Whether nothing is logged. -/
def isEmpty (log : EditLog) : Bool := log.positions.isEmpty

/-- Whether the edge is logged. -/
def contains (log : EditLog) (e : Edge) : Bool := log.positions.contains e

/-- The logged edges, oldest edit first. -/
def toList (log : EditLog) : List Edge := log.slots.toList.filterMap id

/-- Appends an edge unless it is logged already, and tells whether it did. -/
def append (log : EditLog) (e : Edge) : EditLog × Bool :=
  if log.positions.contains e then (log, false)
  else
    let ⟨slots, positions⟩ := log
    let i := slots.size
    (⟨slots.push (some e), positions.insert e i⟩, true)

/-- The log after an edge was appended to it. -/
def push (log : EditLog) (e : Edge) : EditLog := (log.append e).1

/-- Slots below this number are never packed. -/
def packingThreshold : Nat := 64

/-- Records the position of each edge of a run of filled slots. -/
def indexFrom : Nat → List Edge → Std.HashMap Edge Nat → Std.HashMap Edge Nat
  | _, [], positions => positions
  | i, e :: rest, positions => indexFrom (i + 1) rest (positions.insert e i)

/-- Drops the empty slots and renumbers the rest. -/
def pack (log : EditLog) : EditLog :=
  ⟨(log.toList.map some).toArray, indexFrom 0 log.toList log.positions⟩

/-- Packs the slots when they are many and more than half of them are empty. -/
def packIfSparse (log : EditLog) : EditLog :=
  if packingThreshold ≤ log.slots.size ∧ 2 * log.size < log.slots.size then log.pack else log

/-- Forgets an edge and empties the slot that holds it. -/
def vacate (log : EditLog) (e : Edge) (i : Nat) : EditLog :=
  let ⟨slots, positions⟩ := log
  ⟨slots.setIfInBounds i none, positions.erase e⟩

/-- Removes an edge and tells whether it was logged. -/
def remove (log : EditLog) (e : Edge) : EditLog × Bool :=
  match log.positions[e]? with
  | none => (log, false)
  | some i => ((log.vacate e i).packIfSparse, true)

/-- The log after an edge was removed from it. -/
def erase (log : EditLog) (e : Edge) : EditLog := (log.remove e).1

end EditLog
end DeltaMatch
