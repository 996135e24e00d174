import DeltaMatch.Graph.Enumeration
import DeltaMatch.Proofs.EditLog
import DeltaMatch.Proofs.Graph.LayeredLists
import DeltaMatch.Proofs.NeighbourList.Search

/-!
# The edges of a view

Each view is a set of edges, read off the forward lists. Every operation of the
store is described once by what it does to the entries of the lists of each view.
-/

namespace DeltaMatch

namespace Edge

/-- The vertex in whose list of a direction the edge stands. -/
def anchor (e : Edge) : Direction → VertexId
  | .forward => e.source
  | .backward => e.target

/-- The entry by which the edge stands in that list. -/
def entry (e : Edge) : Direction → Neighbour
  | .forward => ⟨e.target, e.label⟩
  | .backward => ⟨e.source, e.label⟩

@[simp] theorem edgeOf_entry (e : Edge) (d : Direction) :
    (e.entry d).edgeOf d (e.anchor d) = e := by
  cases d <;> rfl

end Edge

namespace Neighbour

@[simp] theorem anchor_edgeOf (n : Neighbour) (d : Direction) (v : VertexId) :
    (n.edgeOf d v).anchor d = v := by
  cases d <;> rfl

@[simp] theorem entry_edgeOf (n : Neighbour) (d : Direction) (v : VertexId) :
    (n.edgeOf d v).entry d = n := by
  cases d <;> rfl

theorem edgeOf_eq_iff {n : Neighbour} {d : Direction} {v : VertexId} {e : Edge} :
    n.edgeOf d v = e ↔ e.anchor d = v ∧ n = e.entry d := by
  constructor
  · rintro rfl
    simp
  · intro h
    obtain ⟨rfl, rfl⟩ := h
    simp

end Neighbour

namespace Graph

/-- The view holds the edge. -/
def Has (g : Graph) (view : View) (e : Edge) : Prop :=
  e.entry .forward ∈ g.list view .forward e.source

instance (g : Graph) (view : View) (e : Edge) : Decidable (g.Has view e) :=
  inferInstanceAs (Decidable (_ ∈ g.list view .forward e.source))

theorem mem_list_forward {g : Graph} {view : View} {v : VertexId} {n : Neighbour} :
    n ∈ g.list view .forward v ↔ g.Has view (n.edgeOf .forward v) := Iff.rfl

@[simp] theorem list_merged (g : Graph) (d : Direction) (v : VertexId) :
    g.list .merged d v = (g.layers d).merged v := rfl

theorem list_of_ne_merged (g : Graph) {view : View} (h : view ≠ .merged) (d : Direction)
    (v : VertexId) : g.list view d v = (g.layers d).permanent v := by
  cases view with
  | merged => exact absurd rfl h
  | permanent | diffPlus | diffMinus => rfl

/-- Under a concrete label the merged view is asked for exactly the one edge. -/
theorem hasEdge_iff {g : Graph} {e : Edge} (h : e.label.isAny = false) :
    g.hasEdge e = true ↔ g.Has .merged e :=
  NeighbourList.contains_concrete h

@[simp] theorem not_has_empty (view : View) (e : Edge) : ¬ Graph.empty.Has view e := by
  rw [Has, show Graph.empty.list view .forward e.source = .empty by
    cases view <;> simp [list, layers, Graph.empty]]
  exact NeighbourList.not_mem_empty _

/-! ## Staging an addition -/

section Staging

variable {g : Graph} {e : Edge} {view : View} {d : Direction} {v : VertexId} {n : Neighbour}

theorem layers_stageAdd : (g.stageAdd e).layers d =
    (g.layers d).edit (e.anchor d) (·.add (e.entry d)) := by
  cases d <;> rfl

theorem list_stageAdd : (g.stageAdd e).list view d v =
    if view = .merged ∧ e.anchor d = v then (g.list .merged d v).add (e.entry d)
    else g.list view d v := by
  by_cases hview : view = .merged
  · subst hview
    rw [list_merged, layers_stageAdd, LayeredLists.merged_edit]
    by_cases hv : e.anchor d = v
    · simp [hv]
    · simp [hv]
  · rw [list_of_ne_merged _ hview, layers_stageAdd, LayeredLists.permanent_edit,
      if_neg fun h => hview h.1, list_of_ne_merged _ hview]

theorem mem_list_stageAdd : n ∈ (g.stageAdd e).list view d v ↔
    (view = .merged ∧ n.edgeOf d v = e) ∨ n ∈ g.list view d v := by
  rw [list_stageAdd, Neighbour.edgeOf_eq_iff]
  split
  · rename_i h
    simp [h.1, h.2]
  · rename_i h
    exact ⟨Or.inr, fun h' => h'.resolve_left fun hand => h ⟨hand.1, hand.2.1⟩⟩

theorem has_stageAdd {e' : Edge} : (g.stageAdd e).Has view e' ↔
    (view = .merged ∧ e' = e) ∨ g.Has view e' :=
  mem_list_stageAdd

/-! ## Staging a deletion -/

theorem layers_stageDelete : (g.stageDelete e).layers d =
    (g.layers d).edit (e.anchor d) (·.erase (e.entry d)) := by
  cases d <;> rfl

theorem list_stageDelete : (g.stageDelete e).list view d v =
    if view = .merged ∧ e.anchor d = v then (g.list .merged d v).erase (e.entry d)
    else g.list view d v := by
  by_cases hview : view = .merged
  · subst hview
    rw [list_merged, layers_stageDelete, LayeredLists.merged_edit]
    by_cases hv : e.anchor d = v
    · simp [hv]
    · simp [hv]
  · rw [list_of_ne_merged _ hview, layers_stageDelete, LayeredLists.permanent_edit,
      if_neg fun h => hview h.1, list_of_ne_merged _ hview]

theorem mem_list_stageDelete (h : (g.list .merged d v).toList.Nodup) :
    n ∈ (g.stageDelete e).list view d v ↔
      ¬ (view = .merged ∧ n.edgeOf d v = e) ∧ n ∈ g.list view d v := by
  rw [list_stageDelete, Neighbour.edgeOf_eq_iff]
  split
  · rename_i hand
    rw [NeighbourList.mem_erase h]
    simp [hand.1, hand.2]
  · rename_i hand
    exact ⟨fun h' => ⟨fun hand' => hand ⟨hand'.1, hand'.2.1⟩, h'⟩, And.right⟩

end Staging

/-! ## Closing a batch -/

theorem list_discard (g : Graph) (view : View) (d : Direction) (v : VertexId) :
    g.discard.1.list view d v = g.list .permanent d v := by
  have hlayers : g.discard.1.layers d = (g.layers d).discard := by cases d <;> rfl
  by_cases hview : view = .merged
  · subst hview
    rw [list_merged, hlayers, LayeredLists.merged_discard, list_of_ne_merged _ (by decide)]
  · rw [list_of_ne_merged _ hview, hlayers, LayeredLists.permanent_discard,
      list_of_ne_merged _ (by decide)]

theorem layers_folded (g : Graph) (d : Direction) :
    g.folded.layers d = (g.layers d).commit g.mergedBound := by
  cases d <;> rfl

theorem list_folded (g : Graph) (view : View) {d : Direction}
    (hover : ∀ w ∈ (g.layers d).overlay, w.toNat < g.mergedBound)
    (hsize : (g.layers d).committed.size ≤ g.mergedBound) (v : VertexId) :
    g.folded.list view d v = g.list .merged d v := by
  by_cases hview : view = .merged
  · subst hview
    rw [list_merged, layers_folded, LayeredLists.merged_commit,
      LayeredLists.permanent_commit hover hsize, list_merged]
  · rw [list_of_ne_merged _ hview, layers_folded, LayeredLists.permanent_commit hover hsize,
      list_merged]

end Graph
end DeltaMatch
