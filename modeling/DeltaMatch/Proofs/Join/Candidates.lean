import DeltaMatch.Join
import DeltaMatch.Proofs.Graph.Relation
import Mathlib.Data.List.Perm.Basic

/-!
# The candidates of an extension

An extension is driven by one list of its stage and narrowed by the others, whichever
of them is the shortest. What comes out is in ascending order, and it is exactly the
vertices that every list of the stage contains.
-/

namespace DeltaMatch
namespace Join

/-- Among some lists, one is no longer than any. -/
theorem exists_shortest {lists : List NeighbourList} (h : lists ≠ []) :
    ∃ l ∈ lists, ∀ l' ∈ lists, l.size ≤ l'.size := by
  induction lists with
  | nil => exact absurd rfl h
  | cons l rest ih =>
    cases rest with
    | nil => exact ⟨l, List.mem_cons_self, fun l' hl' => by simp [List.mem_singleton.mp hl']⟩
    | cons l₂ rest =>
      obtain ⟨m, hm, hmin⟩ := ih (List.cons_ne_nil _ _)
      rcases Nat.le_total l.size m.size with hle | hle
      · refine ⟨l, List.mem_cons_self, fun l' hl' => ?_⟩
        rcases List.mem_cons.mp hl' with rfl | hl'
        · exact Nat.le_refl _
        · exact Nat.le_trans hle (hmin l' hl')
      · refine ⟨m, List.mem_cons_of_mem _ hm, fun l' hl' => ?_⟩
        rcases List.mem_cons.mp hl' with rfl | hl'
        · exact hle
        · exact hmin l' hl'

theorem driverOf_lt {lists : List NeighbourList} (h : lists ≠ []) :
    driverOf lists < lists.length := by
  obtain ⟨l, hl, hmin⟩ := exists_shortest h
  exact List.findIdx_lt_length_of_exists ⟨l, hl, by simpa using hmin⟩

/-- Narrowing keeps the candidates that all the lists contain. -/
theorem narrow_fst {ruled : List (Rule × NeighbourList)} {candidates : List VertexId}
    (h : candidates.Pairwise (· < ·)) : (narrow ruled candidates).1 =
      candidates.filter fun v => ruled.all fun x => x.2.contains v x.1.filter := by
  induction ruled generalizing candidates with
  | nil => exact (List.filter_eq_self.mpr fun _ _ => rfl).symm
  | cons x rest ih =>
    obtain ⟨r, l⟩ := x
    rw [narrow]
    split
    · rename_i hempty
      simp [List.isEmpty_iff.mp hempty]
    · show (narrow rest (l.intersection candidates r.filter)).1 = _
      rw [NeighbourList.intersection_of_ascending h, ih (h.filter _), List.filter_filter]
      simp [Bool.and_comm]

theorem candidatesOf_fst {stage : Stage} {lists : List NeighbourList} (hne : stage ≠ [])
    (hlength : lists.length = stage.length) :
    (candidatesOf stage lists).1.Pairwise (· < ·) ∧
      ∀ v, v ∈ (candidatesOf stage lists).1 ↔
        ∀ x ∈ stage.zip lists, x.2.contains v x.1.filter = true := by
  have hlists : lists ≠ [] := by
    rintro rfl
    exact hne (List.length_eq_zero_iff.mp hlength.symm)
  have hdriver : driverOf lists < (stage.zip lists).length := by
    have := driverOf_lt hlists
    rw [List.length_zip, hlength, Nat.min_self]
    omega
  obtain ⟨r, l, hrl⟩ : ∃ r l, (stage.zip lists)[driverOf lists] = (r, l) := ⟨_, _, rfl⟩
  have hcandidates : (candidatesOf stage lists).1 = (l.filteredIds r.filter).filter
      fun v => ((stage.zip lists).eraseIdx (driverOf lists)).all
        fun x => x.2.contains v x.1.filter := by
    rw [candidatesOf]
    simp only [List.getElem?_eq_getElem hdriver, hrl]
    exact narrow_fst (l.filteredIds_ascending r.filter)
  -- the driver and the lists it is narrowed by are all the lists, in another order
  have hperm := List.getElem_cons_eraseIdx_perm hdriver
  rw [hrl] at hperm
  refine ⟨?_, fun v => ?_⟩
  · rw [hcandidates]
    exact (l.filteredIds_ascending r.filter).filter _
  · rw [hcandidates, List.mem_filter, NeighbourList.mem_filteredIds, List.all_eq_true]
    constructor
    · rintro ⟨hl, hrest⟩ x hx
      rcases List.mem_cons.mp (hperm.mem_iff.mpr hx) with rfl | hx
      · exact hl
      · exact hrest x hx
    · intro hall
      refine ⟨hall (r, l) (hperm.mem_iff.mp List.mem_cons_self), fun x hx => ?_⟩
      exact hall x (hperm.mem_iff.mp (List.mem_cons_of_mem _ hx))

/-! ## The candidates of a prefix -/

/-- The vertex in a slot of a prefix that is long enough. -/
def vertexAt (t : Tuple) (slot : Nat) : VertexId := t[slot]?.getD 0

theorem vertexAt_eq {t : Tuple} {slot : Nat} {v : VertexId} (h : t[slot]? = some v) :
    vertexAt t slot = v := by
  rw [vertexAt, h, Option.getD_some]

theorem getElem?_eq_vertexAt {t : Tuple} {slot : Nat} (h : slot < t.length) :
    t[slot]? = some (vertexAt t slot) := by
  rw [vertexAt, List.getElem?_eq_getElem h, Option.getD_some]

/-- The list that a rule reads for a prefix. -/
def listAt (g : Graph) (t : Tuple) (r : Rule) : NeighbourList :=
  g.list r.view r.direction (vertexAt t r.slot)

/-- The vertices that extend a prefix, and the number of intersections made. -/
def candidatesAt (g : Graph) (stage : Stage) (t : Tuple) : List VertexId × Nat :=
  candidatesOf stage (stage.map (listAt g t))

variable {g : Graph} {stage : Stage} {t : Tuple}

/-- Each rule next to the list that it reads. -/
theorem zip_map_listAt (g : Graph) (stage : Stage) (t : Tuple) :
    stage.zip (stage.map (listAt g t)) = stage.map fun r => (r, listAt g t r) := by
  simpa using List.zip_map' (f := id) (g := listAt g t) (l := stage)

theorem candidatesAt_ascending (hne : stage ≠ []) :
    (candidatesAt g stage t).1.Pairwise (· < ·) :=
  (candidatesOf_fst hne (List.length_map _)).1

/-- **An extension is exact**: a vertex is a candidate when all rules of the stage
admit it. -/
theorem mem_candidatesAt (hg : g.WellFormed) (hne : stage ≠ [])
    (hview : ∀ r ∈ stage, r.view.isIndexable = true) {v : VertexId} :
    v ∈ (candidatesAt g stage t).1 ↔ ∀ r ∈ stage, r.Admits g (vertexAt t r.slot) v := by
  rw [candidatesAt, (candidatesOf_fst hne (List.length_map _)).2, zip_map_listAt,
    List.forall_mem_map]
  refine forall_congr' fun r => forall_congr' fun hr => ?_
  exact hg.contains_rule (hview r hr)

end Join
end DeltaMatch
