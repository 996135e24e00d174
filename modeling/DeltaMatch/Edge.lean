import DeltaMatch.Label

/-! Vertices, directions, views and directed labelled edges: the vocabulary
shared by the store and by the queries. -/
namespace DeltaMatch

/-- Vertices are dense 32-bit numbers. -/
abbrev VertexId := UInt32

/-- A partial or complete match: one vertex per bound slot. -/
abbrev Tuple := List VertexId

/-- Which of its two neighbour lists a vertex is asked for. -/
inductive Direction where
  /-- Out-neighbours. -/
  | forward
  /-- In-neighbours. -/
  | backward
  deriving DecidableEq

namespace Direction

/-- The opposite direction. -/
def reverse : Direction → Direction
  | forward => backward
  | backward => forward

/-- The name used in stored plans. -/
def name : Direction → String
  | forward => "Forward"
  | backward => "Backward"

/-- Reads a name back. -/
def ofName? : String → Option Direction
  | "Forward" => some forward
  | "Backward" => some backward
  | _ => none

@[simp] theorem ofName?_name (d : Direction) : ofName? d.name = some d := by
  cases d <;> rfl

end Direction

/-- The four simultaneous views of a graph with a pending batch of edits. -/
inductive View where
  /-- The last committed state. -/
  | permanent
  /-- The log of edges added since the last commit. -/
  | diffPlus
  /-- The log of edges deleted since the last commit. -/
  | diffMinus
  /-- The committed state with the pending edits applied. -/
  | merged
  deriving DecidableEq

namespace View

/-- The two states can be looked up by vertex; the two logs can only be listed. -/
def isIndexable : View → Bool
  | permanent | merged => true
  | diffPlus | diffMinus => false

/-- The name used in stored plans. -/
def name : View → String
  | permanent => "Permanent"
  | diffPlus => "DiffPlus"
  | diffMinus => "DiffMinus"
  | merged => "Merged"

/-- Reads a name back. -/
def ofName? : String → Option View
  | "Permanent" => some permanent
  | "DiffPlus" => some diffPlus
  | "DiffMinus" => some diffMinus
  | "Merged" => some merged
  | _ => none

/-- The word used in prose. -/
def word : View → String
  | permanent => "permanent"
  | diffPlus => "diff_plus"
  | diffMinus => "diff_minus"
  | merged => "merged"

@[simp] theorem ofName?_name (v : View) : ofName? v.name = some v := by
  cases v <;> rfl

end View

/-- A directed labelled edge. -/
structure Edge where
  source : VertexId
  target : VertexId
  label : Label
  deriving DecidableEq, Hashable

namespace Edge

/-- The ordered pair of endpoints, without the label. -/
def pair (e : Edge) : VertexId × VertexId := (e.source, e.target)

/-- The larger endpoint. -/
def highest (e : Edge) : VertexId := max e.source e.target

end Edge
end DeltaMatch
