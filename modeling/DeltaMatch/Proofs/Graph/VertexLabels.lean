import DeltaMatch.Proofs.Graph.BulkLoad

/-!
# The labels of vertices

Labels are kept for the vertex numbers up to the highest that was given one, also beyond the
vertices that the graph has. The wildcard is never kept, and there are no more labels than
vertex numbers.
-/

namespace DeltaMatch
namespace Graph

variable {g g' : Graph} {v : VertexId} {l : Label}

/-! ## One label -/

/-- The labels with one more given, numbers in between being labelled plain. -/
def relabelled (labels : Array Label) (v : VertexId) (l : Label) : Array Label :=
  (labels ++ Array.replicate (v.toNat + 1 - labels.size) Label.plain).setIfInBounds v.toNat l

theorem setVertexLabel_eq_ok_iff : g.setVertexLabel v l = .ok g' ↔
    l.isAny = false ∧ g' = { g with vertexLabels := relabelled g.vertexLabels v l } := by
  rw [setVertexLabel]
  cases l.isAny with
  | true => simp
  | false => simp [relabelled, eq_comm]

/-- A label for the number after the last is put at the end. -/
theorem relabelled_next {labels : Array Label} (h : v.toNat = labels.size) :
    relabelled labels v l = labels.push l := by
  have hmissing : v.toNat + 1 - labels.size = 1 := by omega
  rw [relabelled, hmissing, h]
  apply Array.ext'
  simp

/-- What holds of the labels of every graph. -/
structure ProperLabels (labels : Array Label) : Prop where
  size_le : labels.size ≤ UInt32.size
  concrete : ∀ l ∈ labels, l.isAny = false

namespace ProperLabels

theorem empty : ProperLabels #[] := ⟨Nat.zero_le _, by simp⟩

theorem relabelled {labels : Array Label} (h : ProperLabels labels) (hl : l.isAny = false)
    (v : VertexId) : ProperLabels (relabelled labels v l) where
  size_le := by
    have hsize := h.size_le
    have hv := v.toNat_lt_size
    simp only [Graph.relabelled, Array.size_setIfInBounds, Array.size_append, Array.size_replicate]
    omega
  concrete := by
    intro l' hl'
    rcases Array.mem_or_eq_of_mem_setIfInBounds hl' with hl' | rfl
    · rcases Array.mem_append.mp hl' with hl' | hl'
      · exact h.concrete l' hl'
      · rw [(Array.mem_replicate.mp hl').2]
        rfl
    · exact hl

theorem setVertexLabel (h : ProperLabels g.vertexLabels) (hset : g.setVertexLabel v l = .ok g') :
    ProperLabels g'.vertexLabels := by
  obtain ⟨hl, rfl⟩ := setVertexLabel_eq_ok_iff.mp hset
  exact h.relabelled hl v

theorem restoreLabels {labels : List Label} {i : Nat} (h : ProperLabels g.vertexLabels)
    (hrestore : g.restoreLabels i labels = .ok g') : ProperLabels g'.vertexLabels := by
  induction labels generalizing g i with
  | nil =>
    cases hrestore
    exact h
  | cons l rest ih =>
    rw [Graph.restoreLabels] at hrestore
    split at hrestore
    · cases hrestore
    split at hrestore
    · cases hrestore
    · rename_i next hset
      exact ih (h.setVertexLabel hset) hrestore

theorem origin (h : Origin g) : ProperLabels g.vertexLabels := by
  have hload : ∀ {slots listed loaded}, Graph.load slots listed = .ok loaded →
      ProperLabels loaded.vertexLabels := by
    intro slots listed loaded h
    rw [(LoadOf.of_load h).unlabelled]
    exact empty
  cases h with
  | empty => exact empty
  | load h => exact hload h
  | restore hrestore =>
    unfold Graph.restore at hrestore
    split at hrestore
    · cases hrestore
    · rename_i loaded h
      exact (hload h).restoreLabels hrestore

theorem step (h : ProperLabels g.vertexLabels) (op : Op) :
    ProperLabels (g.step op).vertexLabels := by
  cases op with
  | label v l =>
    rw [Graph.step]
    cases hset : g.setVertexLabel v l with
    | error e => exact h
    | ok g' => exact h.setVertexLabel hset
  | add | delete | commit | discard =>
    rw [vertexLabels_step rfl]
    exact h

end ProperLabels

/-- **The labels of every reachable graph** are few and concrete. -/
theorem Reachable.properLabels (h : g.Reachable) : ProperLabels g.vertexLabels := by
  induction h with
  | origin horigin => exact .origin horigin
  | step op _ ih => exact ih.step op

/-! ## Many labels -/

/-- **Labelling from the next number on** goes through when the wildcard is not among the
labels, and puts them at the end. -/
theorem restoreLabels_eq_ok_iff {labels : List Label}
    (hsize : g.vertexLabels.size + labels.length ≤ UInt32.size) :
    g.restoreLabels g.vertexLabels.size labels = .ok g' ↔
      (∀ l ∈ labels, l.isAny = false) ∧
        g' = { g with vertexLabels := g.vertexLabels ++ labels.toArray } := by
  induction labels generalizing g with
  | nil =>
    rw [restoreLabels, Except.ok.injEq, eq_comm]
    simp
  | cons l rest ih =>
    rw [List.length_cons] at hsize
    rw [restoreLabels, List.forall_mem_cons]
    cases hl : l.isAny with
    | true => simp
    | false =>
      have hnumber : (UInt32.ofNat g.vertexLabels.size).toNat = g.vertexLabels.size :=
        UInt32.toNat_ofNat_of_lt' (by omega)
      have hset : g.setVertexLabel (UInt32.ofNat g.vertexLabels.size) l =
          .ok { g with vertexLabels := g.vertexLabels.push l } := by
        rw [setVertexLabel_eq_ok_iff, relabelled_next hnumber]
        exact ⟨hl, rfl⟩
      have hrest := ih (g := { g with vertexLabels := g.vertexLabels.push l })
        (by rw [Array.size_push]; omega)
      simp only [hset, Bool.false_eq_true, if_false, true_and]
      rw [Array.size_push] at hrest
      rw [hrest]
      simp

end Graph
end DeltaMatch
