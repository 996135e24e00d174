import DeltaMatch.DeltaJoin
import DeltaMatch.Proofs.Pattern.Meaning

/-!
# Counting and netting

The plans of a delta are run into one table of signed counts. A match is reported by
the sign of its count, once, and the reports are sorted before they are cut into
batches.
-/

namespace DeltaMatch

/-! ## Sorting and cutting -/

theorem sortTuples_perm (ts : List Tuple) : (sortTuples ts).Perm ts := List.mergeSort_perm ts _

theorem mem_sortTuples {ts : List Tuple} {t : Tuple} : t ∈ sortTuples ts ↔ t ∈ ts :=
  (sortTuples_perm ts).mem_iff

theorem sortTuples_of_ascending {ts : List Tuple} (h : ts.Pairwise (· < ·)) :
    sortTuples ts = ts :=
  List.mergeSort_of_pairwise (h.imp fun hlt => decide_eq_true (List.le_of_lt hlt))

theorem length_sortTuples (ts : List Tuple) : (sortTuples ts).length = ts.length :=
  (sortTuples_perm ts).length_eq

theorem ascending_sortTuples {ts : List Tuple} (h : ts.Nodup) :
    (sortTuples ts).Pairwise (· < ·) := by
  have hle : (sortTuples ts).Pairwise fun a b => decide (a ≤ b) = true := by
    refine List.pairwise_mergeSort (fun a b c hab hbc => ?_) (fun a b => ?_) ts
    · rw [decide_eq_true_eq] at hab hbc ⊢
      exact List.le_trans hab hbc
    · rw [Bool.or_eq_true, decide_eq_true_eq, decide_eq_true_eq]
      exact List.le_total a b
  have hne : (sortTuples ts).Pairwise (· ≠ ·) := (sortTuples_perm ts).nodup_iff.mpr h
  refine (hle.and hne).imp fun {a b} hab => ?_
  have hle := of_decide_eq_true hab.1
  exact Std.lt_of_le_of_ne hle hab.2

theorem flatten_chunksOf {α : Type} (size : Nat) (xs : List α) :
    (chunksOf size xs).flatten = xs := by
  induction xs using chunksOf.induct size with
  | case1 => rw [chunksOf, List.flatten_nil]
  | case2 x rest ih => rw [chunksOf, List.flatten_cons, ih, List.cons_append, List.take_append_drop]

@[simp]
theorem changeBatches_empty (size : Nat) : changeBatches size {} = [] := by
  simp [changeBatches, sortTuples, chunksOf]

namespace DeltaJoin

/-! ## Counts -/

theorem getD_foldl_tally (sign : Int) (ts : List Tuple) (counts : Counts) (t : Tuple) :
    (ts.foldl (tally sign) counts).getD t 0 = counts.getD t 0 + sign * ts.count t := by
  induction ts generalizing counts with
  | nil => simp
  | cons head rest ih =>
    rw [List.foldl_cons, ih, tally, Std.HashMap.getD_insert, List.count_cons]
    by_cases h : head = t
    · subst h
      simp [Int.mul_add]
      omega
    · simp [h]

theorem counter_offerAll (op : OrderedPlan) (sign : Int) (counts : Counts)
    (batches : List (List Tuple)) : (counter op sign).offerAll counts batches =
      ((batches.flatten.map op.toDeclarationOrder).foldl (tally sign) counts, none) := by
  induction batches generalizing counts with
  | nil => rfl
  | cons b rest ih =>
    show (counter op sign).offerAll
      ((b.map op.toDeclarationOrder).foldl (tally sign) counts) rest = _
    rw [ih, List.flatten_cons, List.map_append, List.foldl_append]

theorem counter_accepts (op : OrderedPlan) (sign : Int) (counts : Counts) :
    (counter op sign).Accepts counts :=
  Sink.accepts_of_forall (fun _ _ => rfl) counts

/-! ## Nets -/

section Net

variable {counts : Counts} {t : Tuple}

theorem mem_toList_iff_getD {n : Int} (hn : n ≠ 0) :
    (t, n) ∈ counts.toList ↔ counts.getD t 0 = n := by
  rw [Std.HashMap.mem_toList_iff_getElem?_eq_some, Std.HashMap.getD_eq_getD_getElem?]
  cases counts[t]? with
  | none => simp [hn.symm]
  | some m => simp

/-- What is not counted has count zero, and is not kept. -/
theorem mem_map_fst_filter (keep : Int → Bool) (hzero : keep 0 = false) :
    t ∈ (counts.toList.filter fun x => keep x.2).map (·.1) ↔ keep (counts.getD t 0) = true := by
  have hne : ∀ n, keep n = true → n ≠ 0 := by
    intro n hn h
    rw [h, hzero] at hn
    cases hn
  rw [List.mem_map]
  constructor
  · intro h
    obtain ⟨⟨t, n⟩, hmem, rfl⟩ := h
    obtain ⟨hmem, hkeep⟩ := List.mem_filter.mp hmem
    rwa [(mem_toList_iff_getD (hne n hkeep)).mp hmem]
  · intro hkeep
    have hmem := (mem_toList_iff_getD (hne _ hkeep)).mpr (rfl : counts.getD t 0 = _)
    exact ⟨(t, _), List.mem_filter.mpr ⟨hmem, hkeep⟩, rfl⟩

theorem mem_emerged_net : t ∈ (net counts).emerged ↔ 0 < counts.getD t 0 := by
  refine (mem_map_fst_filter (fun n => decide (0 < n)) (by decide)).trans ?_
  rw [decide_eq_true_iff]

theorem mem_deleted_net : t ∈ (net counts).deleted ↔ counts.getD t 0 < 0 := by
  refine (mem_map_fst_filter (fun n => decide (n < 0)) (by decide)).trans ?_
  rw [decide_eq_true_iff]

/-- Each match has one count. -/
theorem nodup_map_fst_filter (keep : Tuple × Int → Bool) :
    ((counts.toList.filter keep).map (·.1)).Nodup := by
  have hkeys := Std.HashMap.distinct_keys_toList (m := counts)
  rw [List.Nodup, List.pairwise_map]
  exact (hkeys.filter keep).imp fun {x y} hxy => by simpa using hxy

theorem nodup_emerged_net : (net counts).emerged.Nodup := nodup_map_fst_filter _

theorem nodup_deleted_net : (net counts).deleted.Nodup := nodup_map_fst_filter _

end Net
end DeltaJoin
end DeltaMatch
