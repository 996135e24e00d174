import DeltaMatch.Graph.LayeredLists

/-!
# The two views of one direction

What each operation does to the committed and to the pending list of a vertex.
An edit is seen by the merged view alone, a commit makes the permanent view equal
to the merged one, and a discard the other way round.
-/

namespace DeltaMatch
namespace LayeredLists

variable {a : LayeredLists}

@[simp] theorem permanent_empty (v : VertexId) : empty.permanent v = .empty := by
  simp [permanent, empty]

@[simp] theorem merged_empty (v : VertexId) : empty.merged v = .empty := by
  simp [merged, permanent, empty]

/-! ## Edits -/

variable {change : NeighbourList → NeighbourList} {v : VertexId}

@[simp] theorem committed_edit : (a.edit v change).committed = a.committed := rfl

@[simp] theorem permanent_edit (w : VertexId) :
    (a.edit v change).permanent w = a.permanent w := rfl

theorem merged_edit (w : VertexId) :
    (a.edit v change).merged w = if v = w then change (a.merged v) else a.merged w := by
  have hover : (a.edit v change).overlay = a.overlay.insert v (change (a.merged v)) := rfl
  rw [merged, hover, Std.HashMap.getElem?_insert, permanent_edit]
  by_cases h : v = w
  · simp [h]
  · simp [h, merged]

@[simp] theorem mem_overlay_edit {w : VertexId} :
    w ∈ (a.edit v change).overlay ↔ v = w ∨ w ∈ a.overlay := by
  have hover : (a.edit v change).overlay = a.overlay.insert v (change (a.merged v)) := rfl
  rw [hover, Std.HashMap.mem_insert, beq_iff_eq]

/-! ## Discarding -/

@[simp] theorem permanent_discard (w : VertexId) : a.discard.permanent w = a.permanent w := rfl

@[simp] theorem merged_discard (w : VertexId) : a.discard.merged w = a.permanent w := by
  simp [merged, discard, permanent]

/-- A vertex that is not touched reads the same in both views. -/
theorem merged_of_not_mem {w : VertexId} (h : w ∉ a.overlay) : a.merged w = a.permanent w := by
  rw [merged, Std.HashMap.getElem?_eq_none h, Option.getD_none]

/-! ## Committing -/

/-- Puts pending lists in their places. -/
def place (slots : Array NeighbourList) (pending : List (VertexId × NeighbourList)) :
    Array NeighbourList :=
  pending.foldl (fun lists p => lists.setIfInBounds p.1.toNat p.2) slots

theorem size_place (slots : Array NeighbourList) (pending : List (VertexId × NeighbourList)) :
    (place slots pending).size = slots.size := by
  induction pending generalizing slots with
  | nil => rfl
  | cons p rest ih => rw [place, List.foldl_cons, ← place, ih, Array.size_setIfInBounds]

theorem getD_place_of_forall_ne {slots : Array NeighbourList}
    {pending : List (VertexId × NeighbourList)} {w : VertexId}
    (h : ∀ p ∈ pending, p.1 ≠ w) :
    (place slots pending).getD w.toNat .empty = slots.getD w.toNat .empty := by
  induction pending generalizing slots with
  | nil => rfl
  | cons p rest ih =>
    have hne : p.1.toNat ≠ w.toNat := fun heq =>
      h p List.mem_cons_self (UInt32.toNat_inj.mp heq)
    rw [place, List.foldl_cons, ← place, ih fun q hq => h q (List.mem_cons_of_mem _ hq)]
    simp [Array.getD_eq_getD_getElem?, hne]

theorem getD_place_of_mem {slots : Array NeighbourList}
    {pending : List (VertexId × NeighbourList)} {w : VertexId} {l : NeighbourList}
    (hdistinct : pending.Pairwise fun p q => p.1 ≠ q.1) (hw : w.toNat < slots.size)
    (h : (w, l) ∈ pending) : (place slots pending).getD w.toNat .empty = l := by
  induction pending generalizing slots with
  | nil => cases h
  | cons p rest ih =>
    obtain ⟨hp, hrest⟩ := List.pairwise_cons.mp hdistinct
    rw [place, List.foldl_cons, ← place]
    rcases List.mem_cons.mp h with rfl | h
    · rw [getD_place_of_forall_ne fun q hq => (hp q hq).symm]
      simp [Array.getD_eq_getD_getElem?, hw]
    · exact ih hrest (by rwa [Array.size_setIfInBounds]) h

theorem committed_commit (a : LayeredLists) (bound : Nat) :
    (a.commit bound).committed =
      place (a.committed ++ Array.replicate (bound - a.committed.size) .empty)
        a.overlay.toList := by
  exact Std.HashMap.fold_eq_foldl_toList

theorem size_committed_commit {bound : Nat} (h : a.committed.size ≤ bound) :
    (a.commit bound).committed.size = bound := by
  rw [committed_commit, size_place, Array.size_append, Array.size_replicate]
  omega

/-- **A commit publishes**: the permanent list of every vertex becomes its merged one. -/
theorem permanent_commit {bound : Nat} (hover : ∀ w ∈ a.overlay, w.toNat < bound)
    (hsize : a.committed.size ≤ bound) (w : VertexId) :
    (a.commit bound).permanent w = a.merged w := by
  rw [permanent, committed_commit]
  cases h : a.overlay[w]? with
  | some l =>
    have hmem : w ∈ a.overlay := by simp [Std.HashMap.mem_iff_isSome_getElem?, h]
    rw [getD_place_of_mem (l := l) ?_ ?_ (Std.HashMap.mem_toList_iff_getElem?_eq_some.mpr h)]
    · rw [merged, h, Option.getD_some]
    · exact Std.HashMap.distinct_keys_toList.imp fun hne => by simpa using hne
    · rw [Array.size_append, Array.size_replicate]
      have := hover w hmem
      omega
  | none =>
    have hnone : ∀ p ∈ a.overlay.toList, p.1 ≠ w := by
      rintro ⟨w', l⟩ hp rfl
      rw [Std.HashMap.mem_toList_iff_getElem?_eq_some, h] at hp
      cases hp
    rw [getD_place_of_forall_ne hnone, merged, h, Option.getD_none, permanent]
    simp only [Array.getD_eq_getD_getElem?, Array.getElem?_append, Array.getElem?_replicate]
    split
    · rfl
    · rename_i hge
      rw [Array.getElem?_eq_none (Nat.not_lt.mp hge)]
      split <;> rfl

@[simp] theorem merged_commit (bound : Nat) (w : VertexId) :
    (a.commit bound).merged w = (a.commit bound).permanent w :=
  merged_of_not_mem (Std.HashMap.not_mem_empty)

@[simp] theorem not_mem_overlay_commit (bound : Nat) (w : VertexId) :
    w ∉ (a.commit bound).overlay := Std.HashMap.not_mem_empty

end LayeredLists
end DeltaMatch
