import DeltaMatch.NeighbourList
import Std.Data.HashMap

/-! One direction of a graph: the committed neighbour list of every vertex, and
over it the lists of the vertices touched by pending edits. A vertex that is not
touched reads as its committed list in both views. -/
namespace DeltaMatch

/-- Committed neighbour lists under an overlay of pending ones. -/
structure LayeredLists where
  committed : Array NeighbourList
  overlay : Std.HashMap VertexId NeighbourList

namespace LayeredLists

/-- No vertices and no pending lists. -/
def empty : LayeredLists := ⟨#[], ∅⟩

/-- The committed list of a vertex, empty beyond the committed bound. -/
def permanent (a : LayeredLists) (v : VertexId) : NeighbourList :=
  a.committed.getD v.toNat .empty

/-- The list of a vertex with the pending edits applied. -/
def merged (a : LayeredLists) (v : VertexId) : NeighbourList :=
  (a.overlay[v]?).getD (a.permanent v)

/-- Changes the pending list of a vertex, which starts as its committed list. -/
def edit (a : LayeredLists) (v : VertexId) (change : NeighbourList → NeighbourList) :
    LayeredLists :=
  let list := change (a.merged v)
  let ⟨committed, overlay⟩ := a
  ⟨committed, overlay.insert v list⟩

/-- The committed lists extended to a bound, pending lists put in their places. -/
def commit (a : LayeredLists) (bound : Nat) : LayeredLists :=
  let ⟨committed, overlay⟩ := a
  let slots := committed ++ Array.replicate (bound - committed.size) .empty
  ⟨overlay.fold (fun lists v list => lists.setIfInBounds v.toNat list) slots, ∅⟩

/-- Forgets the pending lists. -/
def discard (a : LayeredLists) : LayeredLists := { a with overlay := ∅ }

end LayeredLists
end DeltaMatch
