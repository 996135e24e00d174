import DeltaMatch.NeighbourList

/-!
# The entries of a neighbour list

A neighbour list is a sorted arrangement of a multiset of entries: `add` puts in
one entry and `erase` takes out one occurrence. What the store needs of it is
membership, and that a list stays free of repetitions.
-/

namespace DeltaMatch
namespace NeighbourList

theorem mem_iff {n : Neighbour} {l : NeighbourList} : n ∈ l ↔ n ∈ l.toList := Iff.rfl

@[simp] theorem toList_empty : empty.toList = [] := rfl

@[simp] theorem not_mem_empty (n : Neighbour) : n ∉ empty := List.not_mem_nil

theorem length_toList (l : NeighbourList) : l.toList.length = l.size := by
  simp [toList, size]

theorem toList_inj {l l' : NeighbourList} (h : l.toList = l'.toList) : l = l' :=
  NeighbourList.ext (Array.toList_inj.mp h)

theorem mem_of_getElem (l : NeighbourList) {i : Nat} (hi : i < l.entries.size) :
    l.entries[i] ∈ l := by
  rw [mem_iff, toList, Array.mem_toList_iff]
  exact Array.getElem_mem hi

theorem exists_getElem_of_mem {l : NeighbourList} {n : Neighbour} (h : n ∈ l) :
    ∃ (i : Nat) (hi : i < l.entries.size), l.entries[i] = n := by
  rw [mem_iff, toList, Array.mem_toList_iff] at h
  exact Array.getElem_of_mem h

theorem id_le_of_le_index (l : NeighbourList) {i j : Nat} (hij : i ≤ j)
    (hj : j < l.entries.size) : l.entries[i].id ≤ l.entries[j].id :=
  Neighbour.id_le_of_le (getElem_le_getElem l.sorted hij hj)

/-- The list is free of repetitions exactly when it ascends strictly. -/
theorem nodup_iff_ascending (l : NeighbourList) :
    l.toList.Nodup ↔ l.toList.Pairwise (· < ·) := by
  constructor
  · intro h
    refine (List.Pairwise.and l.sorted h).imp ?_
    intro a b hab
    exact Neighbour.lt_iff_le_and_ne.mpr hab
  · intro h
    exact h.imp fun hab => (Neighbour.lt_iff_le_and_ne.mp hab).2

/-! ## Adding -/

theorem toList_add (l : NeighbourList) (n : Neighbour) :
    (l.add n).toList = l.toList.insertIdx (l.lowerBound n) n := by
  simp [toList, add, Array.toList_insertIdx]

/-- Adding puts in exactly one entry. -/
theorem toList_add_perm (l : NeighbourList) (n : Neighbour) :
    (l.add n).toList.Perm (n :: l.toList) := by
  rw [toList_add]
  exact List.perm_insertIdx n l.toList (by rw [length_toList]; exact l.lowerBound_le n)

@[simp] theorem mem_add {l : NeighbourList} {m n : Neighbour} :
    m ∈ l.add n ↔ m = n ∨ m ∈ l := by
  rw [mem_iff, (toList_add_perm l n).mem_iff, List.mem_cons, mem_iff]

theorem nodup_add {l : NeighbourList} {n : Neighbour} (h : l.toList.Nodup) (hn : n ∉ l) :
    (l.add n).toList.Nodup :=
  (toList_add_perm l n).nodup_iff.mpr (List.nodup_cons.mpr ⟨hn, h⟩)

/-! ## Erasing -/

/-- An entry that occurs is found at its lower bound. -/
theorem getElem_lowerBound {l : NeighbourList} {n : Neighbour} (h : n ∈ l) :
    ∃ hi : l.lowerBound n < l.entries.size, l.entries[l.lowerBound n] = n := by
  obtain ⟨i, hi, hin⟩ := exists_getElem_of_mem h
  obtain ⟨hbelow, habove⟩ := l.lowerBound_splits n
  have hle : l.lowerBound n ≤ i := by
    refine Nat.not_lt.mp fun hlt => ?_
    exact (Neighbour.lt_iff_le_and_ne.mp (hbelow i hi hlt)).2 hin
  have hlt : l.lowerBound n < l.entries.size := Nat.lt_of_le_of_lt hle hi
  refine ⟨hlt, Neighbour.le_antisymm ?_ (habove _ hlt (Nat.le_refl _))⟩
  exact hin ▸ getElem_le_getElem l.sorted hle hi

theorem hasEntry_iff {l : NeighbourList} {n : Neighbour} : l.hasEntry n = true ↔ n ∈ l := by
  rw [hasEntry, beq_iff_eq]
  constructor
  · intro h
    obtain ⟨hi, hin⟩ := Array.getElem?_eq_some_iff.mp h
    exact hin ▸ l.mem_of_getElem hi
  · intro h
    obtain ⟨hi, hin⟩ := getElem_lowerBound h
    rw [Array.getElem?_eq_getElem hi, hin]

theorem not_mem_take_lowerBound (l : NeighbourList) (n : Neighbour) :
    n ∉ l.toList.take (l.lowerBound n) := by
  intro h
  exact (Neighbour.lt_iff_le_and_ne.mp (lt_of_mem_take (l.lowerBound_splits n) h)).2 rfl

/-- Erasing takes out the first occurrence, if there is one. -/
theorem toList_erase (l : NeighbourList) (n : Neighbour) :
    (l.erase n).toList = l.toList.erase n := by
  by_cases hn : n ∈ l
  · obtain ⟨hi, hin⟩ := getElem_lowerBound hn
    have hlen : l.lowerBound n < l.toList.length := by rw [length_toList]; exact hi
    have hget : l.toList[l.lowerBound n] = n := by simpa [toList] using hin
    have hidx : l.toList.idxOf n = l.lowerBound n := by
      have hsplit : l.toList = l.toList.take (l.lowerBound n) ++
          n :: l.toList.drop (l.lowerBound n + 1) := by
        have hdrop := List.getElem_cons_drop hlen
        rw [hget] at hdrop
        rw [hdrop, List.take_append_drop]
      rw [hsplit, List.idxOf_append, if_neg (l.not_mem_take_lowerBound n)]
      simp only [List.idxOf_cons_self, List.length_take]
      omega
    rw [List.erase_eq_eraseIdx_of_idxOf hidx]
    simp [erase, hi, hin, toList, Array.toList_eraseIdx]
  · have hsame : l.erase n = l := by
      rw [erase]
      split
      · rename_i hi
        rw [if_neg (fun hin : l.entries[l.lowerBound n] = n => hn (hin ▸ l.mem_of_getElem hi))]
      · rfl
    rw [hsame, List.erase_of_not_mem hn]

theorem nodup_erase {l : NeighbourList} (h : l.toList.Nodup) (n : Neighbour) :
    (l.erase n).toList.Nodup := by
  rw [toList_erase]
  exact h.erase n

theorem mem_erase {l : NeighbourList} {m n : Neighbour} (h : l.toList.Nodup) :
    m ∈ l.erase n ↔ m ≠ n ∧ m ∈ l := by
  rw [mem_iff, toList_erase, h.mem_erase_iff, mem_iff]

end NeighbourList
end DeltaMatch
