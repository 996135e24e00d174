import DeltaMatch.Proofs.Graph.Cursor
import DeltaMatch.Plan
import DeltaMatch.Proofs.Graph.Invariant

/-!
# The relations of a graph

Matching speaks of pairs of vertices and not of edges: a pair is joined in a view when
some edge whose label passes a filter runs from the one to the other. A log stands for
the pairs that the pending batch joins or parts.
-/

namespace DeltaMatch
namespace Graph

/-- Some edge of the view, its label passing the filter, runs between the vertices. -/
def Joined (g : Graph) (view : View) (filter : Label) (u v : VertexId) : Prop :=
  ∃ label, filter.accepts label = true ∧ g.Has view ⟨u, v, label⟩

/-- The relation that a view stands for under a filter: that of a state is to be joined
in it, that of a log is to be joined in one state and not in the other. -/
def Relates (g : Graph) (view : View) (filter : Label) (u v : VertexId) : Prop :=
  match view with
  | .permanent => g.Joined .permanent filter u v
  | .merged => g.Joined .merged filter u v
  | .diffPlus => g.Joined .merged filter u v ∧ ¬ g.Joined .permanent filter u v
  | .diffMinus => g.Joined .permanent filter u v ∧ ¬ g.Joined .merged filter u v

end Graph

/-- The vertex `v` may stand next to the vertex `u` in the slot of the rule. -/
def Rule.Admits (r : Rule) (g : Graph) (u v : VertexId) : Prop :=
  match r.direction with
  | .forward => g.Relates r.view r.filter u v
  | .backward => g.Relates r.view r.filter v u

namespace Graph
namespace WellFormed

variable {g : Graph}

/-! ## Lookups -/

theorem contains_list (h : g.WellFormed) {view : View} {d : Direction} {u v : VertexId}
    {filter : Label} : (g.list view d u).contains v filter = true ↔
      ∃ label, filter.accepts label = true ∧ g.Has view ((⟨v, label⟩ : Neighbour).edgeOf d u) := by
  rw [NeighbourList.contains_iff]
  constructor
  · intro h
    obtain ⟨⟨id, label⟩, hn, rfl, haccepts⟩ := h
    exact ⟨label, haccepts, h.mem_list.mp hn⟩
  · intro h
    obtain ⟨label, haccepts, hhas⟩ := h
    exact ⟨⟨v, label⟩, h.mem_list.mpr hhas, rfl, haccepts⟩

theorem contains_forward (h : g.WellFormed) {view : View} {u v : VertexId} {filter : Label} :
    (g.list view .forward u).contains v filter = true ↔ g.Joined view filter u v :=
  h.contains_list

theorem contains_backward (h : g.WellFormed) {view : View} {u v : VertexId} {filter : Label} :
    (g.list view .backward v).contains u filter = true ↔ g.Joined view filter u v :=
  h.contains_list

theorem relates_of_indexable {view : View} (hview : view.isIndexable = true) {filter : Label}
    {u v : VertexId} : g.Relates view filter u v ↔ g.Joined view filter u v := by
  cases view with
  | permanent | merged => exact Iff.rfl
  | diffPlus | diffMinus => cases hview

/-- A lookup in the list that a rule reads decides the rule. -/
theorem contains_rule (h : g.WellFormed) {r : Rule} (hview : r.view.isIndexable = true)
    {u v : VertexId} :
    (g.list r.view r.direction u).contains v r.filter = true ↔ r.Admits g u v := by
  unfold Rule.Admits
  cases hd : r.direction with
  | forward => exact h.contains_forward.trans (relates_of_indexable hview).symm
  | backward => exact h.contains_backward.trans (relates_of_indexable hview).symm

/-! ## Vertices -/

theorem lt_of_joined (h : g.WellFormed) {view : View} {filter : Label} {u v : VertexId}
    (huv : g.Joined view filter u v) : u.toNat < g.mergedBound ∧ v.toNat < g.mergedBound := by
  obtain ⟨label, -, hhas⟩ := huv
  exact ⟨h.lt_mergedBound hhas .forward, h.lt_mergedBound hhas .backward⟩

theorem lt_of_relates (h : g.WellFormed) {view : View} {filter : Label} {u v : VertexId}
    (huv : g.Relates view filter u v) : u.toNat < g.mergedBound ∧ v.toNat < g.mergedBound := by
  cases view with
  | permanent | merged => exact h.lt_of_joined huv
  | diffPlus | diffMinus => exact h.lt_of_joined huv.1

/-- What a rule admits is a pair of vertices of the merged view. -/
theorem lt_of_admits (h : g.WellFormed) {r : Rule} {u v : VertexId} (huv : r.Admits g u v) :
    u.toNat < g.mergedBound ∧ v.toNat < g.mergedBound := by
  unfold Rule.Admits at huv
  cases hd : r.direction with
  | forward =>
    rw [hd] at huv
    exact h.lt_of_relates huv
  | backward =>
    rw [hd] at huv
    exact (h.lt_of_relates huv).symm

/-- A lookup in a state succeeds for the vertices of the merged view. -/
theorem neighbours_eq_ok_iff {v : VertexId} {d : Direction} {view : View}
    (hview : view.isIndexable = true) {list : NeighbourList} :
    g.neighbours v d view = .ok list ↔ v.toNat < g.mergedBound ∧ g.list view d v = list := by
  rw [neighbours, hview]
  by_cases hv : g.mergedBound ≤ v.toNat
  · simp [hv, Nat.not_lt.mpr hv]
  · simp [hv, Nat.not_le.mp hv]

theorem neighbours_eq_ok {v : VertexId} {d : Direction} {view : View}
    (hview : view.isIndexable = true) (hv : v.toNat < g.mergedBound) :
    g.neighbours v d view = .ok (g.list view d v) :=
  (neighbours_eq_ok_iff hview).mpr ⟨hv, rfl⟩

/-! ## Enumeration -/

theorem mem_listedEdges (h : g.WellFormed) {view : View} {d : Direction} {e : Edge} :
    e ∈ g.listedEdges view d ↔ g.Has view e := by
  simp only [listedEdges, List.mem_flatMap, List.mem_range, List.mem_map]
  constructor
  · intro h
    obtain ⟨i, -, n, hn, rfl⟩ := h
    exact h.mem_list.mp hn
  · intro he
    have hanchor : UInt32.ofNat (e.anchor d).toNat = e.anchor d := UInt32.ofNat_toNat
    refine ⟨(e.anchor d).toNat, h.anchor_lt he d, e.entry d, ?_, ?_⟩
    · rw [hanchor]
      exact h.mem_list.mpr (by rwa [Edge.edgeOf_entry])
    · rw [hanchor, Edge.edgeOf_entry]

theorem mem_allEdges (h : g.WellFormed) {view : View} {d : Direction} {e : Edge} :
    e ∈ g.allEdges view d ↔
      match view with
      | .permanent => g.Has .permanent e
      | .merged => g.Has .merged e
      | .diffPlus => g.Has .merged e ∧ ¬ g.Has .permanent e
      | .diffMinus => g.Has .permanent e ∧ ¬ g.Has .merged e := by
  cases view with
  | permanent | merged => exact h.mem_listedEdges
  | diffPlus => exact h.mem_plus e
  | diffMinus => exact h.mem_minus e

theorem mem_edges_onLabel {view : View} {d : Direction} {filter : Label} {e : Edge} :
    e ∈ g.edges view d (.onLabel filter) ↔
      e ∈ g.allEdges view d ∧ filter.accepts e.label = true := by
  simp [edges_eq, passes, EdgeFilter.onLabel, EdgeFilter.all]

end WellFormed
end Graph
end DeltaMatch
