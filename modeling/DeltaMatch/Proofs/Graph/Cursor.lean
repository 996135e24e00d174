import DeltaMatch.Graph.Enumeration

/-!
# Walking the lists

A cursor passes the rest of the list at hand and then the lists of the vertices to come, and
yields of these edges the ones that the filter lets through. From the start it has all listed
edges ahead.
-/

namespace DeltaMatch
namespace ListCursor

variable {g : Graph} {filter : EdgeFilter} {c c' : ListCursor} {e : Edge}

/-- The edges that a cursor has yet to pass. -/
def ahead (g : Graph) (c : ListCursor) : List Edge :=
  (c.list.toList.drop c.position).map (·.edgeOf c.direction c.vertex) ++
    (List.range' c.nextVertex (c.bound - c.nextVertex)).flatMap fun i =>
      (g.list c.view c.direction (UInt32.ofNat i)).toList.map
        (·.edgeOf c.direction (UInt32.ofNat i))

theorem ahead_start (g : Graph) (view : View) (d : Direction) :
    (start g view d).ahead g = g.listedEdges view d := by
  simp [ahead, start, Graph.listedEdges, NeighbourList.empty, NeighbourList.toList,
    List.range_eq_range']

theorem ahead_of_entry (h : c.position < c.list.entries.size) :
    c.ahead g = c.list.entries[c.position].edgeOf c.direction c.vertex :: c.skip.ahead g := by
  have hdrop : c.list.toList.drop c.position =
      c.list.entries[c.position] :: c.list.toList.drop (c.position + 1) :=
    List.drop_eq_getElem_cons h
  rw [ahead, hdrop]
  rfl

theorem ahead_of_vertex (h : ¬ c.position < c.list.entries.size)
    (hvertex : c.nextVertex < c.bound) : c.ahead g = (c.turn g).ahead g := by
  have hdrop : c.list.toList.drop c.position = [] :=
    List.drop_eq_nil_of_le (Nat.not_lt.mp h)
  have hcount : c.bound - c.nextVertex = c.bound - (c.nextVertex + 1) + 1 := by omega
  rw [ahead, hdrop, hcount, List.range'_succ]
  simp [ahead, turn]

theorem ahead_of_end (h : ¬ c.position < c.list.entries.size)
    (hvertex : ¬ c.nextVertex < c.bound) : c.ahead g = [] := by
  have hdrop : c.list.toList.drop c.position = [] :=
    List.drop_eq_nil_of_le (Nat.not_lt.mp h)
  have hcount : c.bound - c.nextVertex = 0 := by omega
  rw [ahead, hdrop, hcount]
  rfl

/-- A cursor without a next edge has none ahead that passes the filter. -/
theorem filter_ahead_of_none (h : c.next? g filter = none) :
    (c.ahead g).filter (g.passes filter) = [] := by
  fun_induction next? g filter c with
  | case1 => cases h
  | case2 c hentry _ hpass ih => rw [ahead_of_entry hentry, List.filter_cons_of_neg hpass, ih h]
  | case3 c hentry hvertex ih => rw [ahead_of_vertex hentry hvertex, ih h]
  | case4 c hentry hvertex => rw [ahead_of_end hentry hvertex, List.filter_nil]

/-- **The next edge** is the first one ahead that passes the filter. -/
theorem filter_ahead_of_some (h : c.next? g filter = some (e, c')) :
    (c.ahead g).filter (g.passes filter) = e :: (c'.ahead g).filter (g.passes filter) := by
  fun_induction next? g filter c with
  | case1 c hentry _ hpass =>
    simp only [Option.some.injEq, Prod.mk.injEq] at h
    obtain ⟨rfl, rfl⟩ := h
    rw [ahead_of_entry hentry, List.filter_cons_of_pos hpass]
  | case2 c hentry _ hpass ih => rw [ahead_of_entry hentry, List.filter_cons_of_neg hpass, ih h]
  | case3 c hentry hvertex ih => rw [ahead_of_vertex hentry hvertex, ih h]
  | case4 => cases h

theorem toList_collect (g : Graph) (filter : EdgeFilter) (out : Array Edge) (c : ListCursor) :
    (c.collect g filter out).toList = out.toList ++ (c.ahead g).filter (g.passes filter) := by
  fun_induction collect g filter out c with
  | case1 out c hnext => rw [filter_ahead_of_none hnext, List.append_nil]
  | case2 out c e c' hnext ih =>
    rw [ih, filter_ahead_of_some hnext, Array.toList_push, List.append_assoc,
      List.singleton_append]

/-- The edges that a cursor yields, one call after the other, until there is no next one. -/
inductive Yields (g : Graph) (filter : EdgeFilter) : ListCursor → List Edge → Prop
  | done {c : ListCursor} : c.next? g filter = none → Yields g filter c []
  | more {c c' : ListCursor} {e : Edge} {rest : List Edge} :
      c.next? g filter = some (e, c') → Yields g filter c' rest → Yields g filter c (e :: rest)

/-- **Every cursor comes to an end**, and has then yielded what was ahead of it. -/
theorem yields_ahead (g : Graph) (filter : EdgeFilter) (c : ListCursor) :
    c.Yields g filter ((c.ahead g).filter (g.passes filter)) := by
  fun_induction collect g filter #[] c with
  | case1 out c hnext =>
    rw [filter_ahead_of_none hnext]
    exact .done hnext
  | case2 out c e c' hnext ih =>
    rw [filter_ahead_of_some hnext]
    exact .more hnext ih

end ListCursor

/-- **An enumeration selects** the edges of its view that pass the filter, and keeps their
order. -/
theorem Graph.edges_eq (g : Graph) (view : View) (d : Direction) (filter : EdgeFilter) :
    g.edges view d filter = (g.allEdges view d).filter (g.passes filter) := by
  cases view with
  | diffPlus | diffMinus => rfl
  | permanent | merged =>
    rw [edges, ListCursor.toList_collect, ListCursor.ahead_start]
    exact List.nil_append _

end DeltaMatch
