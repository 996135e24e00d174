import DeltaMatch.Join
import DeltaMatch.Proofs.Graph.ViewEdges

/-!
# The pairs of a seed

A seed goes through the edges of its view and takes each pair of endpoints once. A state lists
the edges of a pair next to each other, so that it is enough to skip the pair that has just been
taken; in a log all pairs taken so far count. Either way the pairs come in the order in which
the view has them first.
-/

namespace DeltaMatch
namespace Join

/-! ## Lists without repetitions -/

section Runs

variable {α : Type} [BEq α] {R : α → α → Prop} {xs : List α}

theorem loop_eraseReps (a : α) (xs acc : List α) :
    List.eraseRepsBy.loop (· == ·) a xs acc = acc.reverse ++ (a :: xs).eraseReps := by
  have hstart : ∀ (a : α) (xs : List α),
      (a :: xs).eraseReps = List.eraseRepsBy.loop (· == ·) a xs [] := fun _ _ => rfl
  induction xs generalizing a acc with
  | nil => simp [hstart, List.eraseRepsBy.loop]
  | cons b rest ih =>
    rw [hstart, List.eraseRepsBy.loop, List.eraseRepsBy.loop]
    cases a == b with
    | true => exact (ih a acc).trans (by rw [ih a []]; rfl)
    | false => simp only [ih b (a :: acc), ih b [a], List.reverse_cons, List.append_assoc,
        List.reverse_nil, List.nil_append]

theorem eraseReps_cons_cons (a b : α) (xs : List α) : (a :: b :: xs).eraseReps =
    if a == b then (a :: xs).eraseReps else a :: (b :: xs).eraseReps := by
  show List.eraseRepsBy.loop (· == ·) a (b :: xs) [] = _
  rw [List.eraseRepsBy.loop]
  cases a == b with
  | true => exact loop_eraseReps a xs []
  | false => exact loop_eraseReps b xs [a]

variable [LawfulBEq α]

theorem mem_eraseReps {x : α} : x ∈ xs.eraseReps ↔ x ∈ xs := by
  cases xs with
  | nil => rfl
  | cons a rest =>
    induction rest generalizing a with
    | nil => rfl
    | cons b rest ih =>
      rw [eraseReps_cons_cons]
      by_cases hab : a = b
      · subst hab
        rw [if_pos BEq.rfl, ih a]
        simp
      · rw [if_neg (by simpa using hab), List.mem_cons, ih b, List.mem_cons, List.mem_cons,
          List.mem_cons]

/-- A list with its equal elements next to each other has none left. -/
theorem pairwise_eraseReps (hasymm : ∀ a b, R a b → ¬ R b a)
    (h : xs.Pairwise fun a b => a = b ∨ R a b) : xs.eraseReps.Pairwise R := by
  cases xs with
  | nil => exact List.Pairwise.nil
  | cons a rest =>
    induction rest generalizing a with
    | nil => exact List.pairwise_singleton R a
    | cons b rest ih =>
      obtain ⟨ha, hb⟩ := List.pairwise_cons.mp h
      rw [eraseReps_cons_cons]
      by_cases hab : a = b
      · subst hab
        rw [if_pos BEq.rfl]
        exact ih a hb
      · rw [if_neg (by simpa using hab)]
        refine List.pairwise_cons.mpr ⟨fun x hx => ?_, ih b hb⟩
        have hx : x ∈ b :: rest := mem_eraseReps.mp hx
        rcases ha x hx with rfl | hlt
        · -- past the second element the first one cannot come back
          have hnext := (ha b List.mem_cons_self).resolve_left hab
          rcases List.mem_cons.mp hx with heq | hx
          · exact absurd heq hab
          · rcases (List.pairwise_cons.mp hb).1 a hx with heq | hlt
            · exact absurd heq.symm hab
            · exact absurd hlt (hasymm a b hnext)
        · exact hlt

end Runs

theorem go_firstOccurrences {α : Type} [BEq α] [Hashable α] [LawfulBEq α] [LawfulHashable α]
    (seen : Std.HashSet α) (xs : List α) : (firstOccurrences.go seen xs).Nodup ∧
      ∀ x, x ∈ firstOccurrences.go seen xs ↔ x ∈ xs ∧ x ∉ seen := by
  induction xs generalizing seen with
  | nil => simp [firstOccurrences.go]
  | cons y rest ih =>
    rw [firstOccurrences.go]
    split
    · rename_i hy
      rw [Std.HashSet.contains_iff_mem] at hy
      refine ⟨(ih seen).1, fun x => ?_⟩
      rw [(ih seen).2, List.mem_cons]
      constructor
      · intro h
        obtain ⟨hx, hseen⟩ := h
        exact ⟨Or.inr hx, hseen⟩
      · rintro ⟨rfl | hx, hseen⟩
        · exact absurd hy hseen
        · exact ⟨hx, hseen⟩
    · rename_i hy
      rw [Std.HashSet.contains_iff_mem] at hy
      obtain ⟨hnodup, hmem⟩ := ih (seen.insert y)
      refine ⟨List.nodup_cons.mpr ⟨fun hy' => ?_, hnodup⟩, fun x => ?_⟩
      · exact ((hmem y).mp hy').2 Std.HashSet.mem_insert_self
      · rw [List.mem_cons, hmem, List.mem_cons, Std.HashSet.mem_insert, beq_iff_eq]
        by_cases hxy : x = y
        · subst hxy
          simp [hy]
        · simp [hxy, Ne.symm hxy]

theorem nodup_firstOccurrences {α : Type} [BEq α] [Hashable α] [LawfulBEq α] [LawfulHashable α]
    (xs : List α) : (firstOccurrences xs).Nodup :=
  (go_firstOccurrences ∅ xs).1

theorem mem_firstOccurrences {α : Type} [BEq α] [Hashable α] [LawfulBEq α] [LawfulHashable α]
    {xs : List α} {x : α} : x ∈ firstOccurrences xs ↔ x ∈ xs := by
  rw [firstOccurrences, (go_firstOccurrences ∅ xs).2]
  simp

/-- The first occurrences come in the order in which their keys are found first. -/
theorem pairwise_findIdx_go {α β : Type} [BEq β] [Hashable β] [LawfulBEq β] [LawfulHashable β]
    (p : α → Bool) (key : α → β) (seen : Std.HashSet β) (xs : List α) :
    (firstOccurrences.go seen ((xs.filter p).map key)).Pairwise fun a b =>
      xs.findIdx (fun x => p x && key x == a) < xs.findIdx (fun x => p x && key x == b) := by
  induction xs generalizing seen with
  | nil => exact List.Pairwise.nil
  | cons x rest ih =>
    -- a key that is not found at the head is found one place later than in the rest
    have hstep : ∀ {ys : List β}, (∀ a ∈ ys, (p x && key x == a) = false) →
        ys.Pairwise (fun a b => rest.findIdx (fun x => p x && key x == a) <
          rest.findIdx (fun x => p x && key x == b)) →
        ys.Pairwise fun a b => (x :: rest).findIdx (fun x => p x && key x == a) <
          (x :: rest).findIdx (fun x => p x && key x == b) := by
      intro ys hys h
      refine h.imp_of_mem fun {a b} ha hb hlt => ?_
      rw [List.findIdx_cons, List.findIdx_cons, hys a ha, hys b hb]
      exact Nat.succ_lt_succ hlt
    have hmem := fun seen => (go_firstOccurrences seen ((rest.filter p).map key)).2
    by_cases hp : p x = true
    · rw [List.filter_cons_of_pos hp, List.map_cons, firstOccurrences.go]
      split
      · rename_i hseen
        rw [Std.HashSet.contains_iff_mem] at hseen
        refine hstep (fun a ha => ?_) (ih seen)
        rw [hp, Bool.true_and, beq_eq_false_iff_ne]
        rintro rfl
        exact ((hmem seen _).mp ha).2 hseen
      · have hother : ∀ a ∈ firstOccurrences.go (seen.insert (key x)) ((rest.filter p).map key),
            (p x && key x == a) = false := by
          intro a ha
          rw [hp, Bool.true_and, beq_eq_false_iff_ne]
          rintro rfl
          exact ((hmem _ _).mp ha).2 Std.HashSet.mem_insert_self
        refine List.pairwise_cons.mpr ⟨fun a ha => ?_, hstep hother (ih _)⟩
        have hhead : (p x && key x == key x) = true := by simp [hp]
        rw [List.findIdx_cons, List.findIdx_cons, hhead, hother a ha]
        exact Nat.succ_pos _
    · rw [List.filter_cons_of_neg hp]
      refine hstep (fun a _ => ?_) (ih seen)
      simp [hp]

/-! ## Pairs -/

theorem seedPrefix_injective (d : Direction) : Function.Injective (seedPrefix d) := by
  rintro ⟨u, v⟩ ⟨u', v'⟩ h
  cases d <;> simp_all [seedPrefix]

theorem mem_distinctPairs {view : View} {edges : List Edge} {pair : VertexId × VertexId} :
    pair ∈ distinctPairs view edges ↔ pair ∈ edges.map Edge.pair := by
  rw [distinctPairs]
  cases view.isIndexable with
  | true => exact mem_eraseReps
  | false => exact mem_firstOccurrences

/-- An edge that comes later has the same endpoints or seeds a greater prefix. -/
theorem seedPrefix_lt_of_precedes {d : Direction} {e e' : Edge} (h : Edge.Precedes d e e') :
    e.pair = e'.pair ∨ seedPrefix d e.pair < seedPrefix d e'.pair := by
  have hlt : ∀ {a b a' b' : VertexId}, a < a' ∨ (a = a' ∧ b < b') →
      ([a, b] : Tuple) < [a', b'] := by
    intro a b a' b' h
    rw [List.cons_lt_cons_iff, List.cons_lt_cons_iff]
    exact h.imp_right fun h => ⟨h.1, Or.inl h.2⟩
  cases d with
  | forward =>
    rcases h with h | ⟨heq, h | ⟨hid, -⟩⟩
    · exact Or.inr (hlt (Or.inl h))
    · exact Or.inr (hlt (Or.inr ⟨heq, h⟩))
    · exact Or.inl (Prod.ext heq hid)
  | backward =>
    rcases h with h | ⟨heq, h | ⟨hid, -⟩⟩
    · exact Or.inr (hlt (Or.inl h))
    · exact Or.inr (hlt (Or.inr ⟨heq, h⟩))
    · exact Or.inl (Prod.ext hid heq)

variable {g : Graph} {seed : Rule}

/-- **A state seeds its prefixes in ascending order.** -/
theorem ascending_distinctPairs (hg : g.WellFormed) (hview : seed.view.isIndexable = true) :
    (distinctPairs seed.view (seedEdges g seed)).Pairwise fun pair pair' =>
      seedPrefix seed.direction pair < seedPrefix seed.direction pair' := by
  rw [distinctPairs, if_pos hview]
  refine pairwise_eraseReps (fun pair pair' h h' => ?_) ?_
  · exact List.lt_irrefl _ (List.lt_trans h h')
  · rw [List.pairwise_map]
    exact (hg.ascending_edges hview seed.direction _).imp seedPrefix_lt_of_precedes

/-- **A log seeds its prefixes in the order of the first edge** of each pair that passes the
filter of the seed. -/
theorem pairwise_findIdx_distinctPairs {log : EditLog} (hlog : g.diff seed.view = .ok log) :
    (distinctPairs seed.view (seedEdges g seed)).Pairwise fun pair pair' =>
      log.toList.findIdx (fun e => seed.filter.accepts e.label && e.pair == pair) <
        log.toList.findIdx (fun e => seed.filter.accepts e.label && e.pair == pair') := by
  have hview : seed.view.isIndexable = false := by
    cases hview : seed.view with
    | diffPlus | diffMinus => rfl
    | permanent | merged =>
      rw [hview] at hlog
      cases hlog
  have hpasses : g.passes (.onLabel seed.filter) = fun e => seed.filter.accepts e.label := by
    funext e
    simp [Graph.passes, EdgeFilter.onLabel, EdgeFilter.all]
  rw [distinctPairs, hview, seedEdges, Graph.edges_of_diff hlog, hpasses]
  exact pairwise_findIdx_go _ _ ∅ log.toList

theorem nodup_distinctPairs (hg : g.WellFormed) :
    (distinctPairs seed.view (seedEdges g seed)).Nodup := by
  cases hview : seed.view.isIndexable with
  | true =>
    refine (ascending_distinctPairs hg hview).imp ?_
    rintro pair pair' hlt rfl
    exact List.lt_irrefl _ hlt
  | false =>
    rw [distinctPairs, hview]
    exact nodup_firstOccurrences _

end Join
end DeltaMatch
