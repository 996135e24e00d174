import DeltaMatch.Proofs.Graph.BulkLoad
import DeltaMatch.Proofs.Observation

/-!
# A committed batch and a bulk load

What a batch of edits commits to is a matter of sets: the edges that are left in the end and
the slots that were asked for on the way. Loading these edges in bulk, in any order, gives
the same lists, and another batch with the same outcome gives a graph that nothing tells
apart.
-/

namespace DeltaMatch
namespace Graph

variable {g : Graph} {ops : List Op}

/-! ## Committed batches -/

/-- The edges and the slots of a committed batch. -/
theorem committed_edits (h : g.WellFormed) (hidle : g.Idle)
    (hops : ∀ op ∈ ops, op.isEdit = true) :
    (∀ e, (ops.foldl step g).commit.1.Has .permanent e ↔
        e ∈ ops.foldl Op.onEdges (g.edgeSet .permanent)) ∧
      ∀ view, (ops.foldl step g).commit.1.vertexCount view =
        ops.foldl Op.onSlots (g.vertexCount .permanent) := by
  obtain ⟨hedges, hbound⟩ := edits_run h hops
  have hafter := h.foldl ops
  have hsame : g.edgeSet .merged = g.edgeSet .permanent := by
    ext e
    rw [mem_edgeSet h, mem_edgeSet h, Has, hidle.list_eq, Has]
  constructor
  · intro e
    rw [hafter.has_commit, ← mem_edgeSet hafter, hedges, hsame]
  · intro view
    rw [hafter.vertexCount_commit, hbound, hidle.bounds, vertexCount]

/-- Batches with the same outcome commit to graphs that nothing tells apart. -/
theorem indistinguishable_commits {ops' : List Op} (h : g.WellFormed) (hidle : g.Idle)
    (hops : ∀ op ∈ ops, op.isEdit = true) (hops' : ∀ op ∈ ops', op.isEdit = true)
    (hedges : ops.foldl Op.onEdges (g.edgeSet .permanent) =
      ops'.foldl Op.onEdges (g.edgeSet .permanent))
    (hslots : ops.foldl Op.onSlots (g.vertexCount .permanent) =
      ops'.foldl Op.onSlots (g.vertexCount .permanent)) :
    Indistinguishable (ops.foldl step g).commit.1 (ops'.foldl step g).commit.1 := by
  obtain ⟨hhas, hcount⟩ := committed_edits h hidle hops
  obtain ⟨hhas', hcount'⟩ := committed_edits h hidle hops'
  have hcommitted := (h.foldl ops).step .commit
  have hcommitted' := (h.foldl ops').step .commit
  have hsame : ∀ e, (ops.foldl step g).commit.1.Has .permanent e ↔
      (ops'.foldl step g).commit.1.Has .permanent e := by
    intro e
    rw [hhas, hhas', hedges]
  have hbound : (ops.foldl step g).commit.1.vertexCount .permanent =
      (ops'.foldl step g).commit.1.vertexCount .permanent := by
    rw [hcount, hcount', hslots]
  have hlabels : (ops.foldl step g).commit.1.vertexLabels =
      (ops'.foldl step g).commit.1.vertexLabels := by
    rw [vertexLabels_commit, vertexLabels_commit, (edit_run hops).1.labels,
      (edit_run hops').1.labels]
  have hlists := hcommitted.list_eq_of_has hcommitted'.toCoherent hsame
  exact (Alike.of_idle hcommitted hcommitted' (h.foldl ops).idle_commit (h.foldl ops').idle_commit
    hlists hbound hlabels).indistinguishable

/-- **A committed batch equals a bulk load.** From a graph with nothing pending, let edits be
committed. Then the permanent lists are those of a bulk load of the edges that the edits
leave, read as insertions and removals, whatever the order of the load; slots and edges are
counted right and nothing is pending. Other edits that leave the same edges and ask for the
same slots commit to an indistinguishable graph. -/
theorem committed_equals_loaded (hg : g.Reachable) (hnone : g.hasPending = false)
    (hops : ∀ op ∈ ops, op.isEdit = true) :
    let committed := (ops.foldl step g).commit.1
    let edges := ops.foldl Op.onEdges (g.edgeSet .permanent)
    let slots := ops.foldl Op.onSlots (g.vertexCount .permanent)
    (∀ listed : List Edge, listed.toFinset = edges →
      ∃ loaded, Graph.load slots listed = .ok loaded ∧
        ∀ d v, committed.list .permanent d v = loaded.list .permanent d v) ∧
    committed.vertexCount .permanent = slots ∧ committed.vertexCount .merged = slots ∧
    committed.edgeCount = edges.card ∧ committed.hasPending = false ∧
    ∀ ops' : List Op, (∀ op ∈ ops', op.isEdit = true) →
      ops'.foldl Op.onEdges (g.edgeSet .permanent) = edges →
      ops'.foldl Op.onSlots (g.vertexCount .permanent) = slots →
      Indistinguishable (ops'.foldl step g).commit.1 committed := by
  intro committed edges slots
  have h := hg.wellFormed
  have hidle := h.hasPending_eq_false_iff.mp hnone
  have hcommitted : committed.WellFormed := (h.foldl ops).step .commit
  obtain ⟨hhas, hcount⟩ : (∀ e, committed.Has .permanent e ↔ e ∈ edges) ∧
      ∀ view, committed.vertexCount view = slots := committed_edits h hidle hops
  have hset : committed.edgeSet .permanent = edges := by
    ext e
    rw [mem_edgeSet hcommitted, hhas]
  refine ⟨?_, hcount .permanent, hcount .merged, ?_, ?_, ?_⟩
  · intro listed hlisted
    rw [← hcount .permanent]
    apply hcommitted.exists_same_load
    intro e
    rw [hhas, ← hlisted, List.mem_toFinset]
  · rw [hcommitted.edgeCount_eq_card, hset]
  · exact hcommitted.hasPending_eq_false_iff.mpr (h.foldl ops).idle_commit
  · intro ops' hops' hedges hslots
    exact indistinguishable_commits h hidle hops' hops hedges hslots

/-- One edge is added twice, another comes and goes and leaves its slots, and the wildcard is
refused: what is left is one edge and five slots. -/
theorem committed_equals_loaded_one :
    let ops : List Op := [.add ⟨0, 1, ⟨2⟩⟩, .add ⟨4, 2, ⟨3⟩⟩, .add ⟨9, 9, .any⟩,
      .delete ⟨4, 2, ⟨3⟩⟩, .add ⟨0, 1, ⟨2⟩⟩]
    let committed := (ops.foldl step .empty).commit.1
    (∃ loaded, Graph.load 5 [⟨0, 1, ⟨2⟩⟩] = .ok loaded ∧
        ∀ d v, committed.list .permanent d v = loaded.list .permanent d v) ∧
      committed.vertexCount .merged = 5 ∧ committed.edgeCount = 1 := by
  intro ops committed
  have hops : ∀ op ∈ ops, op.isEdit = true := by decide
  obtain ⟨hload, -, hslots, hcount, -, -⟩ :=
    committed_equals_loaded (.origin .empty) rfl hops
  exact ⟨hload [⟨0, 1, ⟨2⟩⟩] (by decide), hslots, hcount⟩

end Graph
end DeltaMatch
