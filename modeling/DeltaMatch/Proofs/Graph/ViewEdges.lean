import DeltaMatch.Proofs.Graph.Enumeration
import DeltaMatch.Proofs.Graph.Reachable

/-!
# What an enumeration yields

Each view is a set of edges, and the enumeration of a view yields those of them that pass the
filter, each once and as it is in the graph. In a state they come in the order of the lists that
are walked, and in a log in the order of the log, so that a direction can change the order of
the one and cannot change the other.
-/

namespace DeltaMatch

/-- The filter lets an edge through: it names no label, or the one that the edge and its two
endpoints have. -/
structure EdgeFilter.Admits (filter : EdgeFilter) (g : Graph) (e : Edge) : Prop where
  edge : filter.edge = .any ∨ filter.edge = e.label
  source : filter.source = .any ∨ filter.source = g.vertexLabel e.source
  target : filter.target = .any ∨ filter.target = g.vertexLabel e.target

namespace Graph

variable {g : Graph} {view : View} {filter : EdgeFilter} {e : Edge}

/-- The edges of a view. A log has those that one state has gained over the other. -/
def InView (g : Graph) (view : View) (e : Edge) : Prop :=
  match view with
  | .permanent => g.Has .permanent e
  | .merged => g.Has .merged e
  | .diffPlus => g.Has .merged e ∧ ¬ g.Has .permanent e
  | .diffMinus => g.Has .permanent e ∧ ¬ g.Has .merged e

theorem passes_iff : g.passes filter e = true ↔ filter.Admits g e := by
  rw [passes, Bool.and_eq_true, Bool.and_eq_true, Label.accepts_iff, Label.accepts_iff,
    Label.accepts_iff]
  constructor
  · intro h
    obtain ⟨⟨hedge, hsource⟩, htarget⟩ := h
    exact ⟨hedge, hsource, htarget⟩
  · intro h
    exact ⟨⟨h.edge, h.source⟩, h.target⟩

namespace WellFormed

theorem mem_edges (h : g.WellFormed) {d : Direction} :
    e ∈ g.edges view d filter ↔ g.InView view e ∧ filter.Admits g e := by
  rw [edges_eq, List.mem_filter, passes_iff, h.mem_allEdges]
  cases view <;> exact Iff.rfl

theorem nodup_allEdges (h : g.WellFormed) (view : View) (d : Direction) :
    (g.allEdges view d).Nodup := by
  cases view with
  | permanent | merged =>
    exact Edge.nodup_of_ascending (h.ascending_listedEdges (h.vertexCount_le _) d)
  | diffPlus => exact h.plus_indexed.nodup
  | diffMinus => exact h.minus_indexed.nodup

theorem nodup_edges (h : g.WellFormed) (view : View) (d : Direction) (filter : EdgeFilter) :
    (g.edges view d filter).Nodup := by
  rw [edges_eq]
  exact (h.nodup_allEdges view d).filter _

theorem ascending_edges (h : g.WellFormed) (hview : view.isIndexable = true) (d : Direction)
    (filter : EdgeFilter) : (g.edges view d filter).Pairwise (Edge.Precedes d) := by
  rw [edges_eq]
  refine List.Pairwise.filter _ ?_
  cases view with
  | permanent | merged => exact h.ascending_listedEdges (h.vertexCount_le _) d
  | diffPlus | diffMinus => cases hview

theorem edges_perm (h : g.WellFormed) (view : View) (d d' : Direction) (filter : EdgeFilter) :
    (g.edges view d filter).Perm (g.edges view d' filter) := by
  refine (List.perm_ext_iff_of_nodup (h.nodup_edges view d filter)
    (h.nodup_edges view d' filter)).mpr fun e => ?_
  rw [h.mem_edges, h.mem_edges]

end WellFormed

/-- The cursor of a state comes to its end with what the enumeration collects. -/
theorem yields_edges (hview : view.isIndexable = true) (d : Direction) (filter : EdgeFilter) :
    (ListCursor.start g view d).Yields g filter (g.edges view d filter) := by
  have hyields := ListCursor.yields_ahead g filter (.start g view d)
  rw [ListCursor.ahead_start] at hyields
  rw [edges_eq]
  cases view with
  | permanent | merged => exact hyields
  | diffPlus | diffMinus => cases hview

/-- A log is enumerated in its own order, whatever the direction. -/
theorem edges_of_diff {log : EditLog} (hlog : g.diff view = .ok log) (d : Direction)
    (filter : EdgeFilter) :
    g.edges view d filter = log.toList.filter (g.passes filter) := by
  cases view with
  | diffPlus | diffMinus =>
    cases hlog
    rfl
  | permanent | merged => cases hlog

/-- **Enumeration is exact in every view.** It yields the edges of the view that the filter lets
through, each of them once and nothing else. The cursor of a state comes to an end and has
yielded them in ascending order, so that the two directions list the same edges. A log is
listed in its own order in both directions. -/
theorem edges_exact (h : g.Reachable) (filter : EdgeFilter) :
    (∀ view d, (g.edges view d filter).Nodup ∧
        ∀ e, e ∈ g.edges view d filter ↔ g.InView view e ∧ filter.Admits g e) ∧
      (∀ view, view.isIndexable = true →
        (∀ d, (ListCursor.start g view d).Yields g filter (g.edges view d filter) ∧
          (g.edges view d filter).Pairwise (Edge.Precedes d)) ∧
        (g.edges view .forward filter).Perm (g.edges view .backward filter)) ∧
      ∀ view log, g.diff view = .ok log → ∃ edges, edges.Sublist log.toList ∧
        ∀ d, g.edges view d filter = edges := by
  have h := h.wellFormed
  refine ⟨fun view d => ⟨h.nodup_edges view d filter, fun e => h.mem_edges⟩,
    fun view hview => ⟨fun d => ⟨yields_edges hview d filter, ?_⟩, ?_⟩, fun view log hlog => ?_⟩
  · exact h.ascending_edges hview d filter
  · exact h.edges_perm view .forward .backward filter
  · exact ⟨_, List.filter_sublist, fun d => edges_of_diff hlog d filter⟩

/-- Edges are committed from and to a labelled vertex, and of them one is deleted and another one
added beyond the last vertex. The filter asks for the label at the target. -/
theorem edges_exact_labelled :
    let g := ([.add ⟨0, 2, ⟨4⟩⟩, .add ⟨1, 2, .plain⟩, .add ⟨2, 1, .plain⟩, .commit,
      .label 2 ⟨9⟩, .delete ⟨0, 2, ⟨4⟩⟩, .add ⟨3, 2, ⟨4⟩⟩] : List Op).foldl step .empty
    let filter : EdgeFilter := ⟨.any, .any, ⟨9⟩⟩
    (g.edges .merged .backward filter).Pairwise (Edge.Precedes .backward) ∧
      (⟨3, 2, ⟨4⟩⟩ ∈ g.edges .merged .backward filter ↔
        g.InView .merged ⟨3, 2, ⟨4⟩⟩ ∧ filter.Admits g ⟨3, 2, ⟨4⟩⟩) := by
  intro g filter
  have hg : g.Reachable := (Reachable.origin .empty).foldl _
  obtain ⟨hmem, hstates, -⟩ := edges_exact hg filter
  exact ⟨((hstates .merged rfl).1 .backward).2, (hmem .merged .backward).2 _⟩

end Graph
end DeltaMatch
