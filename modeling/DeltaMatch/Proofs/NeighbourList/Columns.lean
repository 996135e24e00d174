import DeltaMatch.NeighbourList.Reserved
import DeltaMatch.Proofs.NeighbourList.Entries
import Mathlib.Data.Multiset.AddSub

/-!
# Columns as sorted multisets

Columns forget how they came about. All that is left of a history is the multiset of the entries
that were added and not removed again, in ascending order. So an entry is found when the multiset
has it, and columns with equal multisets are equal.
-/

namespace DeltaMatch
namespace NeighbourColumns

variable {c c' : NeighbourColumns} {n : Neighbour} {bag bag' : Multiset Neighbour}

/-! ## Columns and lists -/

/-- The list that stands in the columns. -/
def Ordered.list (h : c.Ordered) : NeighbourList := ⟨c.entries, h.sorted⟩

theorem Ordered.mem_list (h : c.Ordered) : n ∈ h.list ↔ n ∈ c.entries.toList := Iff.rfl

theorem toList_ids (h : c.ids.size = c.labels.size) :
    c.ids.toList = c.entries.toList.map Neighbour.id := by
  rw [toList_entries, List.map_zipWith]
  exact (List.map_fst_zip (by simp [h])).symm.trans (List.map_zip_eq_zipWith ..)

theorem toList_labels (h : c.ids.size = c.labels.size) :
    c.labels.toList = c.entries.toList.map Neighbour.label := by
  rw [toList_entries, List.map_zipWith]
  exact (List.map_snd_zip (by simp [h])).symm.trans (List.map_zip_eq_zipWith ..)

/-- The entries of columns of one length determine the columns. -/
theorem sameEntries_iff (h : c.ids.size = c.labels.size) (h' : c'.ids.size = c'.labels.size) :
    c.sameEntries c' = true ↔ c.entries.toList = c'.entries.toList := by
  rw [sameEntries, Bool.and_eq_true, beq_iff_eq, beq_iff_eq]
  constructor
  · rintro ⟨hids, hlabels⟩
    rw [toList_entries, toList_entries, hids, hlabels]
  · intro hentries
    constructor
    · rw [← Array.toList_inj, toList_ids h, toList_ids h', hentries]
    · rw [← Array.toList_inj, toList_labels h, toList_labels h', hentries]

/-! ## Removing -/

theorem remove_of_mem (h : c.Ordered) (hn : n ∈ c.entries.toList) :
    (c.remove n).2 = true ∧ (c.remove n).1.entries.toList = c.entries.toList.erase n := by
  obtain ⟨hi, hin⟩ := NeighbourList.getElem_lowerBound (h.mem_list.mpr hn)
  have hlt : h.list.lowerBound n < c.size := by rwa [← size_entries h.aligned]
  have hentry : c.entry (h.list.lowerBound n) = n := by
    have hget := (Array.getElem?_eq_getElem hi).symm.trans (getElem?_entries h.aligned hlt)
    exact (Option.some.inj hget).symm.trans hin
  -- both the columns and the list drop what stands at the lower bound
  have hremove : c.remove n = (⟨c.ids.eraseIdxIfInBounds (h.list.lowerBound n),
      c.labels.eraseIdxIfInBounds (h.list.lowerBound n), c.capacity⟩, true) :=
    if_pos ⟨hlt, hentry⟩
  have herase := h.list.toList_erase n
  rw [NeighbourList.erase, dif_pos hi, if_pos hin] at herase
  rw [hremove]
  refine ⟨rfl, ?_⟩
  rw [toList_entries_eraseIdx]
  exact Array.toList_eraseIdx.symm.trans herase

theorem remove_of_not_mem (h : c.Ordered) (hn : n ∉ c.entries.toList) :
    c.remove n = (c, false) := by
  refine if_neg fun hfound => hn ?_
  obtain ⟨hlt, hentry⟩ := hfound
  have hget := getElem?_entries h.aligned hlt
  rw [hentry, ← Array.getElem?_toList] at hget
  exact List.mem_of_getElem? hget

/-! ## Multisets -/

/-- The columns hold the entries of the multiset in ascending order, neighbours and labels side by
side. -/
structure Holds (c : NeighbourColumns) (bag : Multiset Neighbour) : Prop where
  aligned : c.ids.size = c.labels.size
  sorted : c.entries.toList.Pairwise (· ≤ ·)
  entries : (c.entries.toList : Multiset Neighbour) = bag

namespace Holds

theorem ordered (h : c.Holds bag) : c.Ordered := ⟨h.aligned, h.sorted⟩

theorem mem_iff (h : c.Holds bag) : n ∈ bag ↔ n ∈ c.entries.toList := by
  rw [← h.entries, Multiset.mem_coe]

theorem withCapacity (capacity : Nat) : (withCapacity capacity).Holds 0 where
  aligned := rfl
  sorted := (Ordered.withCapacity capacity).sorted
  entries := by rw [toList_entries_withCapacity, Multiset.coe_nil]

/-- Adding inserts one entry. -/
theorem add (h : c.Holds bag) (n : Neighbour) : (c.add n).Holds (n ::ₘ bag) where
  aligned := (h.ordered.add n).aligned
  sorted := (h.ordered.add n).sorted
  entries := by
    obtain ⟨kept, moved, heq, hadd, -⟩ := exists_toList_add (n := n) h.aligned
    rw [← h.entries, hadd, heq, Multiset.cons_coe, Multiset.coe_eq_coe]
    exact List.perm_middle

/-- Removing takes out one entry, if it is there. -/
theorem remove (h : c.Holds bag) (n : Neighbour) : (c.remove n).1.Holds (bag.erase n) where
  aligned := (h.ordered.remove n).aligned
  sorted := (h.ordered.remove n).sorted
  entries := by
    by_cases hn : n ∈ c.entries.toList
    · rw [(remove_of_mem h.ordered hn).2, ← h.entries, Multiset.coe_erase]
    · rw [remove_of_not_mem h.ordered hn, h.entries, Multiset.erase_of_notMem (mt h.mem_iff.mp hn)]

theorem foldl_add (h : c.Holds bag) (ns : List Neighbour) :
    (ns.foldl NeighbourColumns.add c).Holds (ns + bag) := by
  induction ns generalizing c bag with
  | nil => rwa [Multiset.coe_nil, Multiset.zero_add]
  | cons n rest ih =>
    have hrest := ih (h.add n)
    rwa [Multiset.add_cons, ← Multiset.cons_add, Multiset.cons_coe] at hrest

theorem remove_snd_iff (h : c.Holds bag) : (c.remove n).2 = true ↔ n ∈ bag := by
  rw [h.mem_iff]
  by_cases hn : n ∈ c.entries.toList
  · exact iff_of_true (remove_of_mem h.ordered hn).1 hn
  · rw [remove_of_not_mem h.ordered hn]
    exact iff_of_false nofun hn

/-- A multiset has one arrangement in ascending order. -/
theorem sameEntries_iff (h : c.Holds bag) (h' : c'.Holds bag') :
    c.sameEntries c' = true ↔ bag = bag' := by
  rw [NeighbourColumns.sameEntries_iff h.aligned h'.aligned, ← h.entries, ← h'.entries,
    Multiset.coe_eq_coe]
  refine ⟨List.Perm.of_eq, fun hperm => ?_⟩
  exact hperm.eq_of_pairwise (fun _ _ _ _ => Neighbour.le_antisymm) h.sorted h'.sorted

end Holds

/-! ## Histories -/

/-- Columns that came about by adding and removing, and the multiset of the entries that were
added and not removed again. -/
inductive Built : NeighbourColumns → Multiset Neighbour → Prop
  | empty : Built .empty 0
  | withCapacity (capacity : Nat) : Built (.withCapacity capacity) 0
  | ofList (ns : List Neighbour) : Built (.ofList ns) ns
  | add {c : NeighbourColumns} {bag : Multiset Neighbour} (n : Neighbour) :
      Built c bag → Built (c.add n) (n ::ₘ bag)
  | remove {c : NeighbourColumns} {bag : Multiset Neighbour} (n : Neighbour) :
      Built c bag → Built (c.remove n).1 (bag.erase n)

theorem Built.holds (h : Built c bag) : c.Holds bag := by
  induction h with
  | empty => exact .withCapacity 0
  | withCapacity capacity => exact .withCapacity capacity
  | ofList ns =>
    have h := (Holds.withCapacity 0).foldl_add ns
    rwa [Multiset.add_zero] at h
  | add n _ ih => exact ih.add n
  | remove n _ ih => exact ih.remove n

/-- **Columns are sorted multisets.** After every history the columns are of one length and hold, in
ascending order, the entries that were added and not removed again: one more after each addition,
and one less after the removal of an entry that is there. The removal of any other entry is
answered with false and changes nothing. Columns are equal exactly when their multisets are. -/
theorem holds_multiset (h : Built c bag) : c.Holds bag ∧
    (∀ n, (c.add n).Holds (n ::ₘ bag)) ∧
    (∀ n, n ∈ bag → ∃ c', c.remove n = (c', true) ∧ c'.Holds (bag.erase n)) ∧
    (∀ n, n ∉ bag → c.remove n = (c, false)) ∧
    ∀ c' bag', Built c' bag' → (c.sameEntries c' = true ↔ bag = bag') := by
  have h := h.holds
  refine ⟨h, h.add, fun n hn => ?_, fun n hn => remove_of_not_mem h.ordered (mt h.mem_iff.mpr hn),
    fun c' bag' h' => h.sameEntries_iff h'.holds⟩
  exact ⟨_, Prod.ext rfl (h.remove_snd_iff.mpr hn), h.remove n⟩

/-- One entry is added twice and removed once, among labels below and above zero; the other history
has room, and comes to the same entries in another order. -/
theorem holds_multiset_reordered :
    let ns : List Neighbour := [⟨5, ⟨0⟩⟩, ⟨1, ⟨2⟩⟩, ⟨1, ⟨-3⟩⟩, ⟨1, ⟨2⟩⟩]
    let c := ((ofList ns).remove ⟨1, ⟨2⟩⟩).1
    let c' := (((withCapacity 2).add ⟨1, ⟨2⟩⟩).add ⟨1, ⟨-3⟩⟩).add ⟨5, ⟨0⟩⟩
    let bag : Multiset Neighbour := {⟨1, ⟨-3⟩⟩, ⟨1, ⟨2⟩⟩, ⟨5, ⟨0⟩⟩}
    Built c bag ∧ c.Holds bag ∧ c.remove ⟨1, ⟨7⟩⟩ = (c, false) ∧
      (∃ rest, c.remove ⟨1, ⟨2⟩⟩ = (rest, true) ∧ rest.Holds {⟨1, ⟨-3⟩⟩, ⟨5, ⟨0⟩⟩}) ∧
      c.sameEntries c' = true := by
  intro ns c c' bag
  have hbag : Multiset.erase ns ⟨1, ⟨2⟩⟩ = bag := by decide
  have hbuilt : Built c bag := hbag ▸ .remove ⟨1, ⟨2⟩⟩ (.ofList ns)
  have hbuilt' : Built c' _ := .add _ (.add _ (.add _ (.withCapacity 2)))
  obtain ⟨hholds, -, hpresent, habsent, hsame⟩ := holds_multiset hbuilt
  have hpresent := hpresent ⟨1, ⟨2⟩⟩ (by decide)
  rw [show bag.erase ⟨1, ⟨2⟩⟩ = {⟨1, ⟨-3⟩⟩, ⟨5, ⟨0⟩⟩} by decide] at hpresent
  exact ⟨hbuilt, hholds, habsent _ (by decide), hpresent, (hsame c' _ hbuilt').mpr (by decide)⟩

end NeighbourColumns

/-! ## The operations of the list -/

namespace ReservedList

/-- What stands in the columns after an addition is the list after it. -/
theorem list_add (r : ReservedList) (n : Neighbour) : (r.add n).list = r.list.add n := by
  have hcolumns : r.columns.Holds r.columns.entries.toList :=
    ⟨r.ordered.aligned, r.ordered.sorted, rfl⟩
  have hperm : (r.add n).list.toList.Perm (n :: r.list.toList) :=
    Multiset.coe_eq_coe.mp (hcolumns.add n).entries
  refine NeighbourList.toList_inj ?_
  exact (hperm.trans (r.list.toList_add_perm n).symm).eq_of_pairwise
    (fun _ _ _ _ => Neighbour.le_antisymm) (r.add n).list.sorted (r.list.add n).sorted

/-- What stands in the columns after a removal is the list after it. -/
theorem list_remove (r : ReservedList) (n : Neighbour) :
    (r.remove n).1.list = r.list.erase n ∧ (r.remove n).2 = r.list.hasEntry n := by
  by_cases hn : n ∈ r.list
  · obtain ⟨hanswer, hentries⟩ := NeighbourColumns.remove_of_mem r.ordered hn
    refine ⟨NeighbourList.toList_inj ?_, hanswer.trans (NeighbourList.hasEntry_iff.mpr hn).symm⟩
    rw [NeighbourList.toList_erase]
    exact hentries
  · have hsame := NeighbourColumns.remove_of_not_mem r.ordered hn
    constructor
    · refine NeighbourList.toList_inj ?_
      rw [NeighbourList.toList_erase, List.erase_of_not_mem hn]
      exact congrArg (fun x => x.1.entries.toList) hsame
    · rw [Bool.eq_false_iff.mpr (mt NeighbourList.hasEntry_iff.mp hn)]
      exact congrArg Prod.snd hsame

end ReservedList
end DeltaMatch
