import DeltaMatch.EditLog

/-!
# Edit logs as ordered sets

A log stands for the list of its edges. The position index is what its operations
go by, so the index must name exactly the slots that hold an edge. While it does,
`push` appends an absent edge, `erase` drops an edge and keeps the order of the
others, and packing changes nothing.
-/

namespace DeltaMatch
namespace EditLog

/-- The index names, for each logged edge and for no other, the one slot that holds it. -/
def Indexed (log : EditLog) : Prop :=
  ∀ (e : Edge) (i : Nat), log.positions[e]? = some i ↔ log.slots[i]? = some (some e)

/-! ## Reading -/

theorem mem_toList {log : EditLog} {e : Edge} :
    e ∈ log.toList ↔ ∃ i : Nat, log.slots[i]? = some (some e) := by
  simp only [toList, List.mem_filterMap, id, exists_eq_right, Array.mem_toList_iff,
    Array.mem_iff_getElem?]

namespace Indexed

variable {log : EditLog}

theorem empty : Indexed .empty := by
  intro e i
  simp [EditLog.empty]

theorem mem_toList (h : log.Indexed) {e : Edge} : e ∈ log.toList ↔ e ∈ log.positions := by
  rw [EditLog.mem_toList, Std.HashMap.mem_iff_isSome_getElem?, Option.isSome_iff_exists]
  simp only [h e]

theorem contains_iff (h : log.Indexed) {e : Edge} : log.contains e = true ↔ e ∈ log.toList := by
  rw [h.mem_toList, contains, Std.HashMap.contains_iff_mem]

/-- A live slot has the edge to itself. -/
theorem slot_unique (h : log.Indexed) {e : Edge} {i j : Nat}
    (hi : log.slots[i]? = some (some e)) (hj : log.slots[j]? = some (some e)) : i = j := by
  rw [← h] at hi hj
  exact Option.some.inj (hi.symm.trans hj)

/-- Around a live slot, the edge occurs nowhere else. -/
theorem split_at_slot (h : log.Indexed) {e : Edge} {i : Nat}
    (hi : log.slots[i]? = some (some e)) :
    log.slots.toList = log.slots.toList.take i ++ some e :: log.slots.toList.drop (i + 1) ∧
      some e ∉ log.slots.toList.take i := by
  obtain ⟨hlt, hget⟩ := Array.getElem?_eq_some_iff.mp hi
  have hlt' : i < log.slots.toList.length := by simpa using hlt
  have hdrop := List.getElem_cons_drop hlt'
  rw [Array.getElem_toList, hget] at hdrop
  refine ⟨by rw [hdrop, List.take_append_drop], fun hmem => ?_⟩
  obtain ⟨j, hj, hje⟩ := List.mem_iff_getElem.mp hmem
  rw [List.length_take] at hj
  rw [List.getElem_take, Array.getElem_toList] at hje
  have := h.slot_unique hi (Array.getElem?_eq_some_iff.mpr ⟨by omega, hje⟩)
  omega

theorem nodup (h : log.Indexed) : log.toList.Nodup := by
  rw [toList, List.nodup_iff_pairwise_ne, List.pairwise_filterMap]
  refine List.pairwise_iff_getElem.mpr fun i j hi hj hij e he e' he' heq => ?_
  subst heq
  rw [Array.length_toList] at hi hj
  simp only [id, Array.getElem_toList] at he he'
  have := h.slot_unique (Array.getElem?_eq_some_iff.mpr ⟨hi, he⟩)
    (Array.getElem?_eq_some_iff.mpr ⟨hj, he'⟩)
  omega

theorem size_eq (h : log.Indexed) : log.size = log.toList.length := by
  have hperm : log.positions.keys.Perm log.toList := by
    refine (List.perm_ext_iff_of_nodup Std.HashMap.nodup_keys h.nodup).mpr fun e => ?_
    rw [Std.HashMap.mem_keys, h.mem_toList]
  rw [size, ← Std.HashMap.length_keys, hperm.length_eq]

theorem isEmpty_iff (h : log.Indexed) : log.isEmpty = true ↔ log.toList = [] := by
  rw [isEmpty, Std.HashMap.isEmpty_eq_size_eq_zero, beq_iff_eq, ← List.length_eq_zero_iff,
    ← h.size_eq, size]

end Indexed

/-! ## Pushing -/

theorem append_of_contains {log : EditLog} {e : Edge} (h : log.contains e = true) :
    log.append e = (log, false) := by
  unfold append
  exact if_pos h

theorem append_of_not_contains {log : EditLog} {e : Edge} (h : ¬ log.contains e = true) :
    log.append e = (⟨log.slots.push (some e), log.positions.insert e log.slots.size⟩, true) := by
  unfold append
  exact if_neg h

theorem push_of_contains {log : EditLog} {e : Edge} (h : log.contains e = true) :
    log.push e = log := by
  rw [push, append_of_contains h]

theorem push_of_not_contains {log : EditLog} {e : Edge} (h : ¬ log.contains e = true) :
    log.push e = ⟨log.slots.push (some e), log.positions.insert e log.slots.size⟩ := by
  rw [push, append_of_not_contains h]

theorem toList_push {log : EditLog} (h : log.Indexed) (e : Edge) :
    (log.push e).toList = if e ∈ log.toList then log.toList else log.toList ++ [e] := by
  by_cases he : e ∈ log.toList
  · rw [push_of_contains (h.contains_iff.mpr he), if_pos he]
  · rw [push_of_not_contains fun hc => he (h.contains_iff.mp hc), if_neg he]
    simp [toList]

theorem mem_toList_push {log : EditLog} (h : log.Indexed) {e e' : Edge} :
    e' ∈ (log.push e).toList ↔ e' = e ∨ e' ∈ log.toList := by
  rw [toList_push h]
  split
  · rename_i he
    exact ⟨Or.inr, fun h' => h'.elim (fun heq => heq ▸ he) id⟩
  · rw [List.mem_append, List.mem_singleton, Or.comm]

theorem Indexed.push {log : EditLog} (h : log.Indexed) (e : Edge) : (log.push e).Indexed := by
  by_cases hc : log.contains e = true
  · rw [push_of_contains hc]
    exact h
  · rw [push_of_not_contains hc]
    intro e' i
    simp only [Std.HashMap.getElem?_insert, Array.getElem?_push]
    by_cases heq : e = e'
    · subst heq
      -- the edge has no slot yet but the new one
      have hnone : ∀ j, log.slots[j]? ≠ some (some e) := fun j hj =>
        hc (h.contains_iff.mpr (EditLog.mem_toList.mpr ⟨j, hj⟩))
      by_cases hi : i = log.slots.size
      · simp [hi]
      · simp only [beq_self_eq_true, if_true, if_neg hi, Option.some.injEq]
        exact ⟨fun h' => absurd h'.symm hi, fun h' => absurd h' (hnone i)⟩
    · by_cases hi : i = log.slots.size
      · subst hi
        simp [heq, h e']
      · simp [heq, hi, h e']

/-! ## Erasing -/

theorem toList_vacate {log : EditLog} (h : log.Indexed) {e : Edge} {i : Nat}
    (hi : log.slots[i]? = some (some e)) : (log.vacate e i).toList = log.toList.erase e := by
  show (log.slots.setIfInBounds i none).toList.filterMap id = log.toList.erase e
  obtain ⟨hsplit, hnot⟩ := h.split_at_slot hi
  obtain ⟨hlt, -⟩ := Array.getElem?_eq_some_iff.mp hi
  have hlen : (log.slots.toList.take i).length = i := by
    rw [List.length_take, Array.length_toList]
    omega
  have hset : (log.slots.setIfInBounds i none).toList =
      log.slots.toList.take i ++ none :: log.slots.toList.drop (i + 1) := by
    rw [Array.toList_setIfInBounds]
    conv => lhs; rw [hsplit]
    rw [List.set_append_right _ _ (by omega), hlen, Nat.sub_self, List.set_cons_zero]
  have hnot' : e ∉ (log.slots.toList.take i).filterMap id := by
    simpa [List.mem_filterMap] using hnot
  rw [hset, toList]
  conv => rhs; rw [hsplit]
  rw [List.filterMap_append, List.filterMap_append, List.erase_append_right _ hnot']
  simp

/-- Clearing a slot and forgetting its position keeps the index right. -/
theorem Indexed.vacate {log : EditLog} (h : log.Indexed) {e : Edge} {i : Nat}
    (hi : log.slots[i]? = some (some e)) : (log.vacate e i).Indexed := by
  intro e' j
  show (log.positions.erase e)[e']? = some j ↔
    (log.slots.setIfInBounds i none)[j]? = some (some e')
  simp only [Std.HashMap.getElem?_erase, Array.getElem?_setIfInBounds]
  by_cases heq : e = e'
  · subst heq
    by_cases hij : i = j
    · simp [hij]
    · simp only [beq_self_eq_true, if_true, if_neg hij]
      exact ⟨(nomatch ·), fun h' => absurd (h.slot_unique hi h') hij⟩
  · by_cases hij : i = j
    · subst hij
      simp only [beq_iff_eq, heq, if_false, if_true]
      rw [h e', hi]
      simp [heq]
    · simp [heq, hij, h e']

theorem getElem?_indexFrom {es : List Edge} (h : es.Nodup) (i : Nat)
    (positions : Std.HashMap Edge Nat) (e : Edge) :
    (indexFrom i es positions)[e]? =
      if e ∈ es then some (i + es.idxOf e) else positions[e]? := by
  induction es generalizing i positions with
  | nil => simp [indexFrom]
  | cons x rest ih =>
    obtain ⟨hx, hrest⟩ := List.nodup_cons.mp h
    rw [indexFrom, ih hrest]
    by_cases heq : x = e
    · subst heq
      simp [hx]
    · by_cases he : e ∈ rest
      · rw [if_pos he, if_pos (List.mem_cons_of_mem _ he), List.idxOf_cons,
          beq_eq_false_iff_ne.mpr heq, cond_false]
        congr 1
        omega
      · rw [if_neg he, if_neg (by simp [he, Ne.symm heq]), Std.HashMap.getElem?_insert]
        simp [heq]

theorem toList_pack (log : EditLog) : log.pack.toList = log.toList := by
  simp [pack, toList, List.filterMap_map]

theorem Indexed.pack {log : EditLog} (h : log.Indexed) : log.pack.Indexed := by
  intro e i
  simp only [EditLog.pack, getElem?_indexFrom h.nodup, List.getElem?_toArray, List.getElem?_map,
    Option.map_eq_some_iff, Option.some.injEq, exists_eq_right, Nat.zero_add]
  by_cases he : e ∈ log.toList
  · rw [if_pos he, Option.some.injEq]
    constructor
    · rintro rfl
      exact List.getElem?_eq_some_iff.mpr ⟨List.idxOf_lt_length_of_mem he, List.getElem_idxOf _⟩
    · intro hi
      obtain ⟨hlt, rfl⟩ := List.getElem?_eq_some_iff.mp hi
      exact h.nodup.idxOf_getElem i hlt
  · have hnone : log.positions[e]? = none :=
      Std.HashMap.getElem?_eq_none fun hmem => he (h.mem_toList.mpr hmem)
    rw [if_neg he, hnone]
    exact ⟨(nomatch ·), fun h' => absurd (List.mem_of_getElem? h') he⟩

theorem toList_packIfSparse (log : EditLog) : log.packIfSparse.toList = log.toList := by
  unfold packIfSparse
  split
  · exact toList_pack log
  · rfl

theorem Indexed.packIfSparse {log : EditLog} (h : log.Indexed) : log.packIfSparse.Indexed := by
  unfold EditLog.packIfSparse
  split
  · exact h.pack
  · exact h

theorem remove_of_absent {log : EditLog} {e : Edge} (h : log.positions[e]? = none) :
    log.remove e = (log, false) := by
  rw [remove, h]

theorem remove_of_position {log : EditLog} {e : Edge} {i : Nat}
    (h : log.positions[e]? = some i) : log.remove e = ((log.vacate e i).packIfSparse, true) := by
  rw [remove, h]

/-- **Erasing** drops the edge, if it is logged, and keeps the order of the others. -/
theorem toList_erase {log : EditLog} (h : log.Indexed) (e : Edge) :
    (log.erase e).toList = log.toList.erase e := by
  cases hpos : log.positions[e]? with
  | none =>
    rw [erase, remove_of_absent hpos]
    refine (List.erase_of_not_mem fun he => ?_).symm
    rw [h.mem_toList, Std.HashMap.mem_iff_isSome_getElem?, hpos] at he
    cases he
  | some i =>
    rw [erase, remove_of_position hpos, toList_packIfSparse]
    exact toList_vacate h ((h e i).mp hpos)

theorem Indexed.erase {log : EditLog} (h : log.Indexed) (e : Edge) : (log.erase e).Indexed := by
  cases hpos : log.positions[e]? with
  | none =>
    rw [EditLog.erase, remove_of_absent hpos]
    exact h
  | some i =>
    rw [EditLog.erase, remove_of_position hpos]
    exact (h.vacate ((h e i).mp hpos)).packIfSparse

theorem mem_toList_erase {log : EditLog} (h : log.Indexed) {e e' : Edge} :
    e' ∈ (log.erase e).toList ↔ e' ≠ e ∧ e' ∈ log.toList := by
  rw [toList_erase h, h.nodup.mem_erase_iff]

end EditLog
end DeltaMatch
