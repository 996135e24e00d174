import DeltaMatch.Pattern.Planner
import Mathlib.Data.List.Nodup
import Mathlib.Data.List.Perm.Subperm

/-!
# Orderings

An ordering lists each variable once. It turns a tuple in slot order into an assignment
in the order of the variables, and every assignment comes from one tuple.
-/

namespace DeltaMatch
namespace Pattern

/-- The check of an ordering accepts the permutations of the variables. -/
theorem isOrdering_iff_perm {n : Nat} {ordering : List Nat} :
    isOrdering n ordering = true ↔ ordering.Perm (List.range n) := by
  simp only [isOrdering, Bool.and_eq_true, beq_iff_eq, List.all_eq_true, List.contains_iff_mem]
  constructor
  · intro h
    obtain ⟨hlength, hall⟩ := h
    have hsub : (List.range n).Subperm ordering := List.nodup_range.subperm hall
    exact (hsub.perm_of_length_le (by simp [hlength])).symm
  · intro hperm
    exact ⟨by simp [hperm.length_eq], fun v hv => hperm.mem_iff.mpr hv⟩

section Permutation

variable {n : Nat} {ordering : List Nat} (hperm : ordering.Perm (List.range n))
include hperm

theorem nodup_of_ordering : ordering.Nodup := hperm.nodup_iff.mpr List.nodup_range

theorem length_of_ordering : ordering.length = n := by rw [hperm.length_eq, List.length_range]

theorem mem_of_ordering {v : Nat} : v ∈ ordering ↔ v < n := by
  rw [hperm.mem_iff, List.mem_range]

theorem idxOf_lt_of_ordering {v : Nat} (hv : v < n) : ordering.idxOf v < n := by
  rw [← length_of_ordering hperm]
  exact List.idxOf_lt_length_iff.mpr ((mem_of_ordering hperm).mpr hv)

/-- The slot of a variable, from the slot and from the variable. -/
theorem idxOf_eq_of_ordering {i v : Nat} (h : ordering[i]? = some v) : ordering.idxOf v = i := by
  obtain ⟨hlt, rfl⟩ := List.getElem?_eq_some_iff.mp h
  exact (nodup_of_ordering hperm).idxOf_getElem i hlt

theorem getElem?_idxOf_of_ordering {v : Nat} (hv : v < n) :
    ordering[ordering.idxOf v]? = some v :=
  List.getElem?_idxOf ((mem_of_ordering hperm).mpr hv)

/-- Different variables have different slots. -/
theorem idxOf_ne_of_ordering {v w : Nat} (hv : v < n) (hne : v ≠ w) :
    ordering.idxOf v ≠ ordering.idxOf w :=
  fun heq => hne ((List.idxOf_inj ((mem_of_ordering hperm).mpr hv)).mp heq)

end Permutation
end Pattern

/-! ## From slots to variables -/

section Assign

variable {α : Type} {pairs : List (Nat × α)} {out : List α} {i : Nat}

theorem length_foldl_set (pairs : List (Nat × α)) (out : List α) :
    (pairs.foldl (fun out x => out.set x.1 x.2) out).length = out.length := by
  induction pairs generalizing out with
  | nil => rfl
  | cons x rest ih => rw [List.foldl_cons, ih, List.length_set]

theorem getElem?_foldl_set_of_not_mem (h : i ∉ pairs.map Prod.fst) :
    (pairs.foldl (fun out x => out.set x.1 x.2) out)[i]? = out[i]? := by
  induction pairs generalizing out with
  | nil => rfl
  | cons x rest ih =>
    rw [List.map_cons, List.mem_cons, not_or] at h
    rw [List.foldl_cons, ih h.2, List.getElem?_set_ne (Ne.symm h.1)]

theorem getElem?_foldl_set_of_mem {a : α} (hnodup : (pairs.map Prod.fst).Nodup)
    (hmem : (i, a) ∈ pairs) (hi : i < out.length) :
    (pairs.foldl (fun out x => out.set x.1 x.2) out)[i]? = some a := by
  induction pairs generalizing out with
  | nil => cases hmem
  | cons x rest ih =>
    rw [List.map_cons, List.nodup_cons] at hnodup
    rw [List.foldl_cons]
    rcases List.mem_cons.mp hmem with rfl | hmem
    · rw [getElem?_foldl_set_of_not_mem hnodup.1, List.getElem?_set_self hi]
    · exact ih hnodup.2 hmem (by rwa [List.length_set])

end Assign

namespace OrderedPlan

variable {p : OrderedPlan} {n : Nat} {t t' : Tuple}

theorem length_toDeclarationOrder (p : OrderedPlan) (t : Tuple) :
    (p.toDeclarationOrder t).length = t.length := by
  rw [toDeclarationOrder, length_foldl_set, List.length_replicate]

/-- **A variable is given the vertex in its slot.** -/
theorem getElem?_toDeclarationOrder (hperm : p.ordering.Perm (List.range n))
    (ht : t.length = n) {v : Nat} (hv : v < n) :
    (p.toDeclarationOrder t)[v]? = t[p.ordering.idxOf v]? := by
  have hlength := Pattern.length_of_ordering hperm
  have hslot := Pattern.idxOf_lt_of_ordering hperm hv
  have hslot' : p.ordering.idxOf v < p.ordering.length := by rwa [hlength]
  have hslot'' : p.ordering.idxOf v < t.length := by rwa [ht]
  rw [List.getElem?_eq_getElem hslot'', toDeclarationOrder]
  refine getElem?_foldl_set_of_mem ?_ ?_ (by rwa [List.length_replicate, ht])
  · rw [List.map_fst_zip (by omega)]
    exact Pattern.nodup_of_ordering hperm
  · have hzip : p.ordering.idxOf v < (p.ordering.zip t).length := by
      rw [List.length_zip, hlength, ht, Nat.min_self]
      exact hslot
    have hget := List.getElem_mem hzip
    rwa [List.getElem_zip, List.getElem_idxOf] at hget

theorem toDeclarationOrder_injective (hperm : p.ordering.Perm (List.range n))
    (ht : t.length = n) (ht' : t'.length = n)
    (heq : p.toDeclarationOrder t = p.toDeclarationOrder t') : t = t' := by
  have hlength := Pattern.length_of_ordering hperm
  refine List.ext_getElem? fun i => ?_
  by_cases hi : i < n
  · have hi' : i < p.ordering.length := by rwa [hlength]
    have hv : p.ordering[i] < n := (Pattern.mem_of_ordering hperm).mp (List.getElem_mem hi')
    have hslot : p.ordering.idxOf p.ordering[i] = i :=
      (Pattern.nodup_of_ordering hperm).idxOf_getElem i hi'
    have hget := getElem?_toDeclarationOrder hperm ht hv
    rw [heq, getElem?_toDeclarationOrder hperm ht' hv, hslot] at hget
    exact hget.symm
  · rw [List.getElem?_eq_none (by omega), List.getElem?_eq_none (by omega)]

/-- The tuple in slot order that an assignment comes from. -/
def toSlotOrder (p : OrderedPlan) (a : Tuple) : Tuple := p.ordering.map fun v => a.getD v 0

theorem length_toSlotOrder (hperm : p.ordering.Perm (List.range n)) (a : Tuple) :
    (p.toSlotOrder a).length = n := by
  rw [toSlotOrder, List.length_map, Pattern.length_of_ordering hperm]

theorem toDeclarationOrder_toSlotOrder (hperm : p.ordering.Perm (List.range n)) {a : Tuple}
    (ha : a.length = n) : p.toDeclarationOrder (p.toSlotOrder a) = a := by
  have hlength := length_toSlotOrder hperm a
  refine List.ext_getElem? fun v => ?_
  by_cases hv : v < n
  · have hslot : p.ordering.idxOf v < p.ordering.length := by
      rw [Pattern.length_of_ordering hperm]
      exact Pattern.idxOf_lt_of_ordering hperm hv
    rw [getElem?_toDeclarationOrder hperm hlength hv, toSlotOrder, List.getElem?_map,
      List.getElem?_eq_getElem hslot, List.getElem_idxOf]
    simp [List.getElem?_eq_getElem (show v < a.length by rwa [ha])]
  · rw [List.getElem?_eq_none (by rw [length_toDeclarationOrder, hlength]; omega),
      List.getElem?_eq_none (by omega)]

end OrderedPlan
end DeltaMatch
