import DeltaMatch.Graph.Enumeration

/-! Snapshots: the image of the committed state. Pending edits are not part of
it. -/
namespace DeltaMatch

/-- The image of a committed graph. -/
structure Snapshot where
  vertexCount : Nat
  vertexLabels : List Label
  edges : List Edge
  deriving DecidableEq

namespace Graph

/-- The vertex labels up to the last one that was given. -/
def givenLabels (labels : List Label) : List Label :=
  (labels.reverse.dropWhile (· == .plain)).reverse

/-- Captures the committed graph. -/
def snapshot (g : Graph) : Snapshot where
  vertexCount := g.permanentBound
  vertexLabels := givenLabels g.vertexLabels.toList
  edges := g.allEdges .permanent .forward

/-- Labels the vertices from a number on. -/
def restoreLabels (g : Graph) : Nat → List Label → Except GraphError Graph
  | _, [] => .ok g
  | i, l :: rest =>
    if l.isAny then .error (.wildcardAt i)
    else
      match g.setVertexLabel (UInt32.ofNat i) l with
      | .error e => .error e
      | .ok g => g.restoreLabels (i + 1) rest

/-- Rebuilds the graph of a snapshot. -/
def restore (s : Snapshot) : Except GraphError Graph :=
  match load s.vertexCount s.edges with
  | .error e => .error e
  | .ok g => g.restoreLabels 0 s.vertexLabels

end Graph
end DeltaMatch
