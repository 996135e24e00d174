import DeltaMatch.Proofs.Graph.Enumeration
import DeltaMatch.Proofs.Graph.Pending
import Mathlib.Algebra.Ring.Nat
import Mathlib.Data.Finset.Card

/-!
# The edges of a view as a set

A view is a set of edges and a number of slots. An edit acts on these as an insertion or a
removal would; the order in which edges came to be is nowhere to be seen, since the set
determines every list.
-/

namespace DeltaMatch
namespace Graph

variable {g g' : Graph} {ops : List Op} {op : Op} {view view' : View}

/-- The edges of a view. -/
def edgeSet (g : Graph) (view : View) : Finset Edge := (g.listedEdges view .forward).toFinset

theorem mem_edgeSet (h : g.WellFormed) {e : Edge} : e ∈ g.edgeSet view ↔ g.Has view e := by
  rw [edgeSet, List.mem_toFinset, h.mem_listedEdges]

/-! ## Edits as operations on sets -/

/-- An edit read as an insertion or a removal. The wildcard is refused. -/
def Op.onEdges (edges : Finset Edge) : Op → Finset Edge
  | .add e => if e.label.isAny then edges else insert e edges
  | .delete e => if e.label.isAny then edges else edges.erase e
  | .label .. | .commit | .discard => edges

/-- The slots needed after an edit: an addition needs those of its endpoints. -/
def Op.onSlots (slots : Nat) : Op → Nat
  | .add e =>
    if e.label.isAny then slots else max slots (max (e.source.toNat + 1) (e.target.toNat + 1))
  | .delete _ | .label .. | .commit | .discard => slots

theorem edgeSet_step (h : g.WellFormed) (hop : op.isEdit = true) :
    (g.step op).edgeSet .merged = op.onEdges (g.edgeSet .merged) := by
  ext e'
  rw [mem_edgeSet (h.step op)]
  cases op with
  | add e =>
    rw [step_add_eq, Op.onEdges]
    by_cases hany : e.label.isAny = true
    · simp [hany, mem_edgeSet h]
    · by_cases he : g.Has .merged e
      · simp [hany, he, mem_edgeSet h]
      · simp [hany, he, mem_edgeSet h, has_stageAdd]
  | delete e =>
    rw [step_delete_eq, Op.onEdges]
    by_cases hany : e.label.isAny = true
    · simp [hany, mem_edgeSet h]
    · by_cases he : g.Has .merged e
      · simp [hany, he, mem_edgeSet h, h.has_stageDelete]
      · simp [hany, he, mem_edgeSet h]
  | label | commit | discard => cases hop

theorem mergedBound_step (h : g.WellFormed) (hop : op.isEdit = true) :
    (g.step op).mergedBound = op.onSlots g.mergedBound := by
  cases op with
  | add e =>
    rw [step_add_eq, Op.onSlots]
    by_cases hany : e.label.isAny = true
    · simp [hany]
    · by_cases he : g.Has .merged e
      · -- the endpoints of an edge that is there have their slots
        have hsource : e.source.toNat < g.mergedBound := h.lt_mergedBound he .forward
        have htarget : e.target.toNat < g.mergedBound := h.lt_mergedBound he .backward
        simp only [he, hany, or_true, if_true]
        rw [if_neg (by decide)]
        omega
      · simp [hany, he, Coherent.mergedBound_stageAdd]
  | delete e =>
    rw [step_delete_eq, Op.onSlots]
    split <;> rfl
  | label | commit | discard => cases hop

/-- **Edits act on the edges and the slots of the merged view**, whatever the graph does to
keep track of them. -/
theorem edits_run (h : g.WellFormed) (hops : ∀ op ∈ ops, op.isEdit = true) :
    (ops.foldl step g).edgeSet .merged = ops.foldl Op.onEdges (g.edgeSet .merged) ∧
      (ops.foldl step g).mergedBound = ops.foldl Op.onSlots g.mergedBound := by
  induction ops generalizing g with
  | nil => exact ⟨rfl, rfl⟩
  | cons op rest ih =>
    obtain ⟨hop, hrest⟩ := List.forall_mem_cons.mp hops
    have hrun := ih (h.step op) hrest
    rw [edgeSet_step h hop, mergedBound_step h hop] at hrun
    exact hrun

/-! ## Counting -/

theorem foldl_add_size (lists : List NeighbourList) (n : Nat) :
    lists.foldl (fun n list => n + list.size) n = n + (lists.map NeighbourList.size).sum := by
  induction lists generalizing n with
  | nil => simp
  | cons list rest ih =>
    rw [List.foldl_cons, ih, List.map_cons, List.sum_cons]
    omega

/-- **The edge count is the number of committed edges.** -/
theorem WellFormed.edgeCount_eq_card (h : g.WellFormed) :
    g.edgeCount = (g.edgeSet .permanent).card := by
  have hnodup := Edge.nodup_of_ascending
    (h.ascending_listedEdges (h.vertexCount_le .permanent) .forward)
  have hlists : g.forward.committed.toList = _ := h.toList_committed .forward
  rw [edgeSet, List.toFinset_card_of_nodup hnodup, edgeCount, ← Array.foldl_toList, hlists,
    foldl_add_size, listedEdges, List.length_flatMap, Nat.zero_add, List.map_map]
  congr 1
  refine List.map_congr_left ?_
  intro i _
  simp [NeighbourList.length_toList]

/-! ## Lists from sets -/

/-- **The edges of a view determine its lists**, in both directions. -/
theorem Coherent.list_eq_of_has (h : g.Coherent) (h' : g'.Coherent)
    (hhas : ∀ e, g.Has view e ↔ g'.Has view' e) (d : Direction) (v : VertexId) :
    g.list view d v = g'.list view' d v := by
  have hmem : ∀ n, n ∈ g.list view d v ↔ n ∈ g'.list view' d v := by
    intro n
    rw [h.mem_list, h'.mem_list, hhas]
  have hperm : (g.list view d v).toList.Perm (g'.list view' d v).toList :=
    (List.perm_ext_iff_of_nodup (h.nodup view d v) (h'.nodup view' d v)).mpr hmem
  refine NeighbourList.toList_inj (hperm.eq_of_pairwise ?_ (g.list view d v).sorted
    (g'.list view' d v).sorted)
  intro a b _ _ hab hba
  exact Neighbour.le_antisymm hab hba

end Graph
end DeltaMatch
