import DeltaMatch.EditLog
import DeltaMatch.Graph.LayeredLists

/-! The versioned graph: a committed state and one pending batch of edits. Edits
never touch the committed lists; only a commit does. The two logs are kept as the
set differences of the two states: to add an edge whose deletion is pending
cancels the deletion, and the other way round. -/
namespace DeltaMatch

/-- What a commit folded into the committed state. -/
structure CommitStats where
  listsReplaced : Nat
  edgesAdded : Nat
  edgesDeleted : Nat
  deriving DecidableEq

namespace CommitStats

/-- A commit with nothing pending. -/
def zero : CommitStats := ⟨0, 0, 0⟩

/-- Whether the commit had nothing to fold. -/
def isNoop (s : CommitStats) : Bool := s == zero

end CommitStats

/-- A directed graph with a committed state and pending edits. -/
structure Graph where
  forward : LayeredLists
  backward : LayeredLists
  vertexLabels : Array Label
  diffPlus : EditLog
  diffMinus : EditLog
  /-- One past the highest committed vertex. -/
  permanentBound : Nat
  /-- One past the highest vertex of the merged view. -/
  mergedBound : Nat

namespace Graph

/-- The graph without vertices. -/
def empty : Graph := ⟨.empty, .empty, #[], .empty, .empty, 0, 0⟩

instance : Inhabited Graph := ⟨empty⟩

/-! ## Reading -/

/-- Number of vertex slots of a view. The logs have no slots of their own and
report those of the merged view. -/
def vertexCount (g : Graph) : View → Nat
  | .permanent => g.permanentBound
  | .merged | .diffPlus | .diffMinus => g.mergedBound

/-- The highest vertex below a bound, if vertex numbers reach that far. -/
def highestBelow (bound : Nat) : Option VertexId :=
  if 0 < bound ∧ bound ≤ UInt32.size then some (UInt32.ofNat (bound - 1)) else none

/-- Number of committed edges. -/
def edgeCount (g : Graph) : Nat :=
  g.forward.committed.foldl (fun n list => n + list.size) 0

/-- The lists of one direction. -/
def layers (g : Graph) : Direction → LayeredLists
  | .forward => g.forward
  | .backward => g.backward

/-- The neighbour list of a vertex in a view. A log has no lists of its own and
reads as the permanent view. -/
def list (g : Graph) (view : View) (d : Direction) (v : VertexId) : NeighbourList :=
  match view with
  | .merged => (g.layers d).merged v
  | _ => (g.layers d).permanent v

/-- The neighbour list of a vertex that exists in the merged view. -/
def neighbours (g : Graph) (v : VertexId) (d : Direction) (view : View) :
    Except GraphError NeighbourList :=
  if !view.isIndexable then .error .notIndexable
  else if g.mergedBound ≤ v.toNat then .error (.vertexOutOfBounds v (highestBelow g.mergedBound))
  else .ok (g.list view d v)

/-- The pending edits of one kind. -/
def diff (g : Graph) : View → Except GraphError EditLog
  | .diffPlus => .ok g.diffPlus
  | .diffMinus => .ok g.diffMinus
  | .permanent | .merged => .error .noEditLog

/-- Whether an edit awaits a commit or was cancelled since the last one. -/
def hasPending (g : Graph) : Bool :=
  !g.diffPlus.isEmpty || !g.diffMinus.isEmpty || !g.forward.overlay.isEmpty ||
    !g.backward.overlay.isEmpty || g.mergedBound != g.permanentBound

/-- Whether the merged view has the edge. -/
def hasEdge (g : Graph) (e : Edge) : Bool :=
  (g.list .merged .forward e.source).contains e.target e.label

/-- The label of a vertex. -/
def vertexLabel (g : Graph) (v : VertexId) : Label := g.vertexLabels.getD v.toNat .plain

/-! ## Editing -/

/-- Gives a vertex a label. -/
def setVertexLabel (g : Graph) (v : VertexId) (l : Label) : Except GraphError Graph :=
  if l.isAny then .error .wildcardVertex
  else
    let labels := g.vertexLabels ++ Array.replicate (v.toNat + 1 - g.vertexLabels.size) .plain
    .ok { g with vertexLabels := labels.setIfInBounds v.toNat l }

/-- Makes an absent edge pending: its deletion is cancelled or its addition logged. -/
def stageAdd (g : Graph) (e : Edge) : Graph :=
  let ⟨forward, backward, vertexLabels, diffPlus, diffMinus, permanentBound, mergedBound⟩ := g
  { forward := forward.edit e.source (·.add ⟨e.target, e.label⟩)
    backward := backward.edit e.target (·.add ⟨e.source, e.label⟩)
    vertexLabels
    diffPlus := if diffMinus.contains e then diffPlus else diffPlus.push e
    diffMinus := diffMinus.erase e
    permanentBound
    mergedBound := max mergedBound (max (e.source.toNat + 1) (e.target.toNat + 1)) }

/-- Makes a present edge go: its addition is cancelled or its deletion logged. -/
def stageDelete (g : Graph) (e : Edge) : Graph :=
  let ⟨forward, backward, vertexLabels, diffPlus, diffMinus, permanentBound, mergedBound⟩ := g
  { forward := forward.edit e.source (·.erase ⟨e.target, e.label⟩)
    backward := backward.edit e.target (·.erase ⟨e.source, e.label⟩)
    vertexLabels
    diffMinus := if diffPlus.contains e then diffMinus else diffMinus.push e
    diffPlus := diffPlus.erase e
    permanentBound
    mergedBound }

/-- Adds an edge to the pending batch and tells whether it was absent. -/
def add (g : Graph) (e : Edge) : Except GraphError (Graph × Bool) :=
  if e.label.isAny then .error .wildcardEdge
  else if g.hasEdge e then .ok (g, false)
  else .ok (g.stageAdd e, true)

/-- Deletes an edge in the pending batch and tells whether it was present. -/
def delete (g : Graph) (e : Edge) : Except GraphError (Graph × Bool) :=
  if e.label.isAny then .error .wildcardEdge
  else if g.hasEdge e then .ok (g.stageDelete e, true)
  else .ok (g, false)

/-- What a commit would fold. -/
def pendingStats (g : Graph) : CommitStats where
  listsReplaced := g.forward.overlay.size + g.backward.overlay.size
  edgesAdded := g.diffPlus.size
  edgesDeleted := g.diffMinus.size

/-- The graph with the pending edits folded into the committed state. -/
def folded (g : Graph) : Graph :=
  let ⟨forward, backward, vertexLabels, _, _, _, mergedBound⟩ := g
  { forward := forward.commit mergedBound
    backward := backward.commit mergedBound
    vertexLabels
    diffPlus := .empty
    diffMinus := .empty
    permanentBound := mergedBound
    mergedBound }

/-- Commits the pending batch. -/
def commit (g : Graph) : Graph × CommitStats :=
  if g.hasPending then
    let stats := g.pendingStats
    (g.folded, stats)
  else (g, .zero)

/-- Drops the pending batch and tells how many logged edges it held. -/
def discard (g : Graph) : Graph × Nat :=
  ({ g with
      forward := g.forward.discard
      backward := g.backward.discard
      diffPlus := .empty
      diffMinus := .empty
      mergedBound := g.permanentBound },
    g.diffPlus.size + g.diffMinus.size)

/-! ## Loading -/

/-- Adds an edge whose endpoints must lie below a bound. -/
def addBelow (bound : Nat) (g : Graph) (e : Edge) : Except GraphError Graph :=
  if bound ≤ e.source.toNat then .error (.vertexOutOfBounds e.source (highestBelow bound))
  else if bound ≤ e.target.toNat then .error (.vertexOutOfBounds e.target (highestBelow bound))
  else (g.add e).map (·.1)

/-- The graph with the given edges and slots pending. -/
def stageLoad (vertexCount : Nat) (edges : List Edge) : Except GraphError Graph :=
  if UInt32.size < vertexCount then .error (.tooManyVertices vertexCount)
  else do
    let g ← edges.foldlM (addBelow vertexCount) empty
    return { g with mergedBound := max g.mergedBound vertexCount }

/-- The committed graph with the given number of slots and the given edges. -/
def load (vertexCount : Nat) (edges : List Edge) : Except GraphError Graph :=
  (stageLoad vertexCount edges).map (·.commit.1)

/-! ## Describing -/

/-- A one-line summary of the sizes of a graph. -/
def describe (g : Graph) : String :=
  "VersionedGraph \x7b permanent_vertices: " ++ toString g.permanentBound ++
    ", merged_vertices: " ++ toString g.mergedBound ++
    ", diff_plus: " ++ toString g.diffPlus.size ++
    ", diff_minus: " ++ toString g.diffMinus.size ++
    ", overlay_forward: " ++ toString g.forward.overlay.size ++
    ", overlay_backward: " ++ toString g.backward.overlay.size ++ " \x7d"

end Graph
end DeltaMatch
