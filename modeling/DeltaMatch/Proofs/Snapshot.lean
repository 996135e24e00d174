import DeltaMatch.Proofs.Graph.VertexLabels
import DeltaMatch.Proofs.Isolation
import Mathlib.Data.List.DropRight
import Mathlib.Data.List.GetD

/-!
# Snapshots

A snapshot may be written by hand: its edges come in any order and may be repeated, and its
labels may go on past the vertices. Restoring it makes one graph of all that say the same,
and a graph captures the canonical one among them.
-/

namespace DeltaMatch

/-! ## The labels of a snapshot -/

namespace Graph

theorem givenLabels_eq_rdropWhile (labels : List Label) :
    givenLabels labels = labels.rdropWhile (· == .plain) := rfl

/-- All labels stay where the last one is not plain. -/
theorem givenLabels_eq_self_iff {labels : List Label} :
    givenLabels labels = labels ↔ labels.getLast? ≠ some .plain := by
  rw [givenLabels_eq_rdropWhile, List.rdropWhile_eq_self_iff]
  by_cases hnil : labels = []
  · simp [hnil]
  · simp [hnil, List.getLast?_eq_getLast_of_ne_nil]

theorem getLast?_givenLabels (labels : List Label) :
    (givenLabels labels).getLast? ≠ some .plain :=
  givenLabels_eq_self_iff.mp (List.rdropWhile_idempotent _ _)

/-- What is left out is plain. -/
theorem exists_append_givenLabels (labels : List Label) :
    ∃ rest, givenLabels labels ++ rest = labels ∧ ∀ l ∈ rest, l = .plain := by
  refine ⟨labels.rtakeWhile (· == .plain), List.rdropWhile_append_rtakeWhile, fun l hl => ?_⟩
  simpa using List.mem_rtakeWhile_imp hl

/-- A plain label is as good as none. -/
theorem getD_givenLabels (labels : List Label) (i : Nat) :
    (givenLabels labels).getD i .plain = labels.getD i .plain := by
  obtain ⟨rest, heq, hrest⟩ := exists_append_givenLabels labels
  generalize givenLabels labels = given at heq
  subst heq
  by_cases hi : i < given.length
  · rw [List.getD_append _ _ _ _ hi]
  · rw [List.getD_append_right _ _ _ _ (Nat.not_lt.mp hi),
      List.getD_eq_default _ _ (Nat.not_lt.mp hi), List.getD_eq_getElem?_getD]
    cases hl : rest[i - given.length]? with
    | none => rfl
    | some l => exact (hrest l (List.mem_of_getElem? hl)).symm

end Graph

/-! ## Restoring -/

namespace Snapshot

/-- A graph can be made of the snapshot. -/
structure Restorable (s : Snapshot) : Prop where
  slots : s.vertexCount ≤ UInt32.size
  edges : ∀ e ∈ s.edges, Graph.Loadable s.vertexCount e
  labels : ∀ l ∈ s.vertexLabels, l.isAny = false

/-- The snapshot says what it says in the one way in which graphs do: by ascending edges, by
source, target and label, and without plain labels at the end. -/
structure Canonical (s : Snapshot) : Prop where
  edges : s.edges.Pairwise (Edge.Precedes .forward)
  labels : s.vertexLabels.getLast? ≠ some .plain

/-- The graph is what the snapshot says. -/
structure Describes (s : Snapshot) (g : Graph) : Prop where
  hasPending : g.hasPending = false
  vertexCount : ∀ view, g.vertexCount view = s.vertexCount
  list : ∀ view d v n, n ∈ g.list view d v ↔ n.edgeOf d v ∈ s.edges
  edgeCount : g.edgeCount = s.edges.toFinset.card
  vertexLabel : ∀ v, g.vertexLabel v = s.vertexLabels.getD v.toNat .plain

end Snapshot

namespace Graph

variable {s : Snapshot} {g : Graph}

/-- A restored graph is a loaded one under the labels of the snapshot. -/
theorem restore_eq_ok_iff (hlabels : s.vertexLabels.length ≤ UInt32.size) :
    restore s = .ok g ↔ (∀ l ∈ s.vertexLabels, l.isAny = false) ∧
      ∃ loaded, load s.vertexCount s.edges = .ok loaded ∧
        g = { loaded with vertexLabels := s.vertexLabels.toArray } := by
  rw [restore]
  cases hload : load s.vertexCount s.edges with
  | error e => simp
  | ok loaded =>
    have hnone : loaded.vertexLabels = #[] := (LoadOf.of_load hload).unlabelled
    have hrestore : loaded.restoreLabels loaded.vertexLabels.size s.vertexLabels = .ok g ↔ _ :=
      restoreLabels_eq_ok_iff (by simpa [hnone] using hlabels)
    rw [hnone] at hrestore
    simpa using hrestore

/-- **A snapshot can be restored** when its slots, edges and labels can be stored, and not
otherwise. -/
theorem exists_restore_iff (hlabels : s.vertexLabels.length ≤ UInt32.size) :
    (∃ g, restore s = .ok g) ↔ s.Restorable := by
  have hload : (∃ g, load s.vertexCount s.edges = .ok g) ↔ _ := exists_load_iff
  simp only [restore_eq_ok_iff hlabels]
  constructor
  · rintro ⟨-, hconcrete, loaded, h, rfl⟩
    obtain ⟨hslots, hedges⟩ := hload.mp ⟨loaded, h⟩
    exact ⟨hslots, hedges, hconcrete⟩
  · intro h
    obtain ⟨loaded, hloaded⟩ := hload.mpr ⟨h.slots, h.edges⟩
    exact ⟨_, h.labels, loaded, hloaded, rfl⟩

/-- **A restored graph is what the snapshot says.** -/
theorem describes_of_restore (hlabels : s.vertexLabels.length ≤ UInt32.size)
    (h : restore s = .ok g) : s.Describes g := by
  have hwf := WellFormed.restore h
  have hidle : g.Idle := (Origin.restore h).idle
  obtain ⟨-, loaded, hload, rfl⟩ := (restore_eq_ok_iff hlabels).mp h
  obtain ⟨hhas, hcount, -⟩ := LoadOf.of_load hload
  refine ⟨hwf.hasPending_eq_false_iff.mpr hidle, hcount, fun view d v n => ?_, ?_, fun v => ?_⟩
  · rw [hidle.list_eq view, hwf.mem_list]
    exact hhas _
  · rw [hwf.edgeCount_eq_card]
    congr 1
    ext e
    rw [mem_edgeSet hwf, List.mem_toFinset]
    exact hhas e
  · simp [vertexLabel]

/-! ## Capturing -/

/-- **Graphs capture canonical snapshots.** -/
theorem WellFormed.canonical_snapshot (h : g.WellFormed) : g.snapshot.Canonical where
  edges := h.ascending_listedEdges (h.vertexCount_le .permanent) .forward
  labels := getLast?_givenLabels _

/-- **A restored graph gives its snapshot back** when that is canonical, and not otherwise. -/
theorem snapshot_eq_iff_of_restore (hlabels : s.vertexLabels.length ≤ UInt32.size)
    (h : restore s = .ok g) : g.snapshot = s ↔ s.Canonical := by
  have hwf := WellFormed.restore h
  have hdescribes := describes_of_restore hlabels h
  constructor
  · intro heq
    have hcanonical := hwf.canonical_snapshot
    rwa [heq] at hcanonical
  · intro hcanonical
    have hcount : g.permanentBound = s.vertexCount := hdescribes.vertexCount .permanent
    have hedges : g.listedEdges .permanent .forward = s.edges := by
      refine Edge.eq_of_ascending hwf.canonical_snapshot.edges hcanonical.edges fun e => ?_
      exact hwf.mem_listedEdges.trans (hdescribes.list .permanent .forward _ _)
    have hgiven : givenLabels g.vertexLabels.toList = s.vertexLabels := by
      obtain ⟨-, loaded, -, rfl⟩ := (restore_eq_ok_iff hlabels).mp h
      exact givenLabels_eq_self_iff.mpr hcanonical.labels
    rw [snapshot, allEdges, hcount, hedges, hgiven]

/-- What a graph captures can be stored. -/
theorem Reachable.restorable_snapshot (h : g.Reachable) :
    g.snapshot.vertexLabels.length ≤ UInt32.size ∧ g.snapshot.Restorable := by
  have hwf := h.wellFormed
  obtain ⟨hsize, hconcrete⟩ := h.properLabels
  obtain ⟨rest, happend, -⟩ := exists_append_givenLabels g.vertexLabels.toList
  refine ⟨?_, hwf.vertexCount_le .permanent, fun e he => ?_, fun l hl => ?_⟩
  · have hsum := congrArg List.length happend
    rw [List.length_append, Array.length_toList] at hsum
    exact Nat.le_trans (Nat.le.intro hsum) hsize
  · exact hwf.loadable_of_has (hwf.mem_listedEdges.mp he)
  · refine hconcrete l (Array.mem_toList_iff.mp ?_)
    rw [← happend]
    exact List.mem_append_left _ hl

/-- **Restoring what a graph captured** brings back what it has committed and how its vertices
are labelled. -/
theorem Reachable.exists_restore_snapshot (h : g.Reachable) : ∃ g', restore g.snapshot = .ok g' ∧
    (∀ d v, g'.list .permanent d v = g.list .permanent d v) ∧
    g'.vertexCount .permanent = g.vertexCount .permanent ∧
    ∀ v, g'.vertexLabel v = g.vertexLabel v := by
  obtain ⟨hlabels, hrestorable⟩ := h.restorable_snapshot
  obtain ⟨g', hrestore⟩ := (exists_restore_iff hlabels).mpr hrestorable
  have hdescribes := describes_of_restore hlabels hrestore
  have hsame : ∀ e, g'.Has .permanent e ↔ g.Has .permanent e := fun e =>
    (hdescribes.list .permanent .forward _ _).trans h.wellFormed.mem_listedEdges
  refine ⟨g', hrestore, ?_, hdescribes.vertexCount .permanent, fun v => ?_⟩
  · exact (WellFormed.restore hrestore).list_eq_of_has h.wellFormed.toCoherent hsame
  · rw [hdescribes.vertexLabel, vertexLabel, snapshot, getD_givenLabels]
    simp [Array.getD_eq_getD_getElem?]

/-- **Snapshots and graphs.** A snapshot can be restored exactly when its slots, edges and
labels can be stored, the graph is then what the snapshot says, and gives it back exactly
when it is canonical. What a graph captures is canonical and heedless of pending edits, and
can be restored to the same committed lists, slots and labels. -/
theorem snapshot_restore :
    (∀ s : Snapshot, s.vertexLabels.length ≤ UInt32.size →
      ((∃ g, restore s = .ok g) ↔ s.Restorable) ∧
      ∀ g, restore s = .ok g → s.Describes g ∧ (g.snapshot = s ↔ s.Canonical)) ∧
    ∀ g : Graph, g.Reachable →
      g.snapshot.Canonical ∧
      g.discard.1.snapshot = g.snapshot ∧
      (∀ ops : List Op, (∀ op ∈ ops, op.isEdit = true) →
        (ops.foldl step g).snapshot = g.snapshot) ∧
      ∃ g', restore g.snapshot = .ok g' ∧
        (∀ d v, g'.list .permanent d v = g.list .permanent d v) ∧
        g'.vertexCount .permanent = g.vertexCount .permanent ∧
        ∀ v, g'.vertexLabel v = g.vertexLabel v := by
  refine ⟨fun s hlabels => ⟨exists_restore_iff hlabels, fun g h => ?_⟩, fun g hg => ?_⟩
  · exact ⟨describes_of_restore hlabels h, snapshot_eq_iff_of_restore hlabels h⟩
  · exact ⟨hg.wellFormed.canonical_snapshot, (SameCommitted.discard g).snapshot_eq,
      fun ops hops => (edit_run hops).1.snapshot_eq, hg.exists_restore_snapshot⟩

/-- A snapshot by hand, with a repeated edge, edges out of order and labels past the last
vertex, the last one plain; and a graph with a committed edge being deleted, an edge to a new
vertex being added and a label for a vertex that it does not have. -/
theorem snapshot_restore_by_hand :
    let s : Snapshot := ⟨3, [⟨0⟩, ⟨5⟩, ⟨0⟩, ⟨6⟩, ⟨0⟩],
      [⟨2, 0, ⟨1⟩⟩, ⟨0, 1, ⟨4⟩⟩, ⟨2, 0, ⟨1⟩⟩]⟩
    let g := ([.add ⟨0, 1, ⟨2⟩⟩, .commit, .label 9 ⟨4⟩, .delete ⟨0, 1, ⟨2⟩⟩, .add ⟨7, 0, ⟨2⟩⟩] :
      List Op).foldl step .empty
    (∃ restored, restore s = .ok restored ∧ s.Describes restored ∧ restored.snapshot ≠ s) ∧
      g.snapshot.Canonical ∧ g.discard.1.snapshot = g.snapshot ∧
      ∃ g', restore g.snapshot = .ok g' ∧
        (∀ d v, g'.list .permanent d v = g.list .permanent d v) ∧
        g'.vertexCount .permanent = g.vertexCount .permanent ∧
        ∀ v, g'.vertexLabel v = g.vertexLabel v := by
  intro s g
  obtain ⟨hrestored, hcaptured⟩ := snapshot_restore
  obtain ⟨hiff, hspec⟩ := hrestored s (by decide)
  obtain ⟨hcanonical, hdiscard, -, hback⟩ := hcaptured g ((Reachable.origin .empty).foldl _)
  have hrestorable : s.Restorable := by
    refine ⟨by decide, ?_, by decide⟩
    simp only [Loadable]
    decide
  obtain ⟨restored, h⟩ := hiff.mpr hrestorable
  obtain ⟨hdescribes, hsame⟩ := hspec restored h
  refine ⟨⟨restored, h, hdescribes, fun heq => ?_⟩, hcanonical, hdiscard, hback⟩
  exact (hsame.mp heq).labels rfl

end Graph
end DeltaMatch
