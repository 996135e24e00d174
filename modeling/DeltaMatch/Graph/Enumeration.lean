import DeltaMatch.Graph.Basic

/-! Enumeration of the edges of one view. A state is walked vertex by vertex along
the lists of one direction, with a cursor; a log is walked in the order of its edits.
Every edge is listed with its true orientation. -/
namespace DeltaMatch

/-- The labels that an enumerated edge and its endpoints must have. -/
structure EdgeFilter where
  edge : Label
  source : Label
  target : Label
  deriving DecidableEq

namespace EdgeFilter

/-- Accepts every edge. -/
def all : EdgeFilter := ⟨.any, .any, .any⟩

/-- Accepts the edges whose label passes a filter. -/
def onLabel (filter : Label) : EdgeFilter := { all with edge := filter }

end EdgeFilter

/-- The edge behind an entry in the list of a vertex. -/
def Neighbour.edgeOf (n : Neighbour) (d : Direction) (v : VertexId) : Edge :=
  match d with
  | .forward => ⟨v, n.id, n.label⟩
  | .backward => ⟨n.id, v, n.label⟩

namespace Graph

/-- Whether an edge passes the filter in this graph. -/
def passes (g : Graph) (filter : EdgeFilter) (e : Edge) : Bool :=
  filter.edge.accepts e.label && filter.source.accepts (g.vertexLabel e.source) &&
    filter.target.accepts (g.vertexLabel e.target)

/-- The edges behind the lists of one direction, by ascending vertex. -/
def listedEdges (g : Graph) (view : View) (d : Direction) : List Edge :=
  (List.range (g.vertexCount view)).flatMap fun i =>
    (g.list view d (UInt32.ofNat i)).toList.map (·.edgeOf d (UInt32.ofNat i))

/-- All edges of a view. -/
def allEdges (g : Graph) (view : View) (d : Direction) : List Edge :=
  match view with
  | .diffPlus => g.diffPlus.toList
  | .diffMinus => g.diffMinus.toList
  | .permanent | .merged => g.listedEdges view d

end Graph

/-! ## The cursor -/

/-- Where a walk along the lists of a state stands: at an entry of the list of some vertex, with
the vertices from the next one up to a bound still to come. -/
structure ListCursor where
  view : View
  direction : Direction
  vertex : VertexId
  list : NeighbourList
  position : Nat
  nextVertex : Nat
  bound : Nat

namespace ListCursor

/-- The cursor before the first vertex. -/
def start (g : Graph) (view : View) (d : Direction) : ListCursor where
  view
  direction := d
  vertex := 0
  list := .empty
  position := 0
  nextVertex := 0
  bound := g.vertexCount view

/-- Past one entry. -/
def skip (c : ListCursor) : ListCursor := { c with position := c.position + 1 }

/-- At the first entry of the next vertex. -/
def turn (g : Graph) (c : ListCursor) : ListCursor :=
  let v := UInt32.ofNat c.nextVertex
  { c with
    vertex := v
    list := g.list c.view c.direction v
    position := 0
    nextVertex := c.nextVertex + 1 }

/-- The vertices to come, and the entries left of the list at hand. -/
def left (c : ListCursor) : Nat × Nat :=
  (c.bound - c.nextVertex, c.list.entries.size - c.position)

theorem skip_left {c : ListCursor} (h : c.position < c.list.entries.size) :
    Prod.Lex (· < ·) (· < ·) c.skip.left c.left :=
  Prod.Lex.right _ (Nat.sub_succ_lt_self _ _ h)

theorem turn_left {g : Graph} {c : ListCursor} (h : c.nextVertex < c.bound) :
    Prod.Lex (· < ·) (· < ·) (c.turn g).left c.left :=
  Prod.Lex.left _ _ (Nat.sub_succ_lt_self _ _ h)

theorem left_trans {p q r : Nat × Nat} (h : Prod.Lex (· < ·) (· < ·) p q)
    (h' : Prod.Lex (· < ·) (· < ·) q r) : Prod.Lex (· < ·) (· < ·) p r := by
  rw [Prod.lex_def] at *
  omega

/-- The next edge that passes the filter, and the cursor behind it. -/
def next? (g : Graph) (filter : EdgeFilter) (c : ListCursor) : Option (Edge × ListCursor) :=
  if hentry : c.position < c.list.entries.size then
    let e := c.list.entries[c.position].edgeOf c.direction c.vertex
    if g.passes filter e then some (e, c.skip) else c.skip.next? g filter
  else if hvertex : c.nextVertex < c.bound then (c.turn g).next? g filter
  else none
termination_by c.left
decreasing_by
  · exact skip_left hentry
  · exact turn_left hvertex

/-- Each edge that is yielded uses the cursor up. -/
theorem next?_left {g : Graph} {filter : EdgeFilter} {c c' : ListCursor} {e : Edge}
    (h : c.next? g filter = some (e, c')) : Prod.Lex (· < ·) (· < ·) c'.left c.left := by
  fun_induction next? g filter c with
  | case1 c hentry _ hpass =>
    simp only [Option.some.injEq, Prod.mk.injEq] at h
    obtain ⟨-, rfl⟩ := h
    exact skip_left hentry
  | case2 c hentry _ hpass ih => exact left_trans (ih h) (skip_left hentry)
  | case3 c hentry hvertex ih => exact left_trans (ih h) (turn_left hvertex)
  | case4 => cases h

/-- Collects what is still to be yielded. -/
def collect (g : Graph) (filter : EdgeFilter) (out : Array Edge) (c : ListCursor) :
    Array Edge :=
  match _h : c.next? g filter with
  | none => out
  | some (e, c') => collect g filter (out.push e) c'
termination_by c.left
decreasing_by exact next?_left ‹_›

end ListCursor

/-- The edges of a view that pass a filter. -/
def Graph.edges (g : Graph) (view : View) (d : Direction) (filter : EdgeFilter) : List Edge :=
  match view with
  | .diffPlus | .diffMinus => (g.allEdges view d).filter (g.passes filter)
  | .permanent | .merged => ((ListCursor.start g view d).collect g filter #[]).toList

end DeltaMatch
