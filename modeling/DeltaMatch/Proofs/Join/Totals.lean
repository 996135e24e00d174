import DeltaMatch.Proofs.Join.Delivery
import Mathlib.Algebra.BigOperators.Fin
import Mathlib.Algebra.BigOperators.Group.List.Basic

/-!
# Totals over an execution

Whatever is counted along an execution adds up to a sum over the prefixes that are handed to
each stage, and a sum does not depend on how its terms are grouped: the batches in which the
prefixes travel do not show in it.
-/

namespace DeltaMatch
namespace Join

variable {M : Type} [AddCommMonoid M] {amount : Event → M} {each : M} {g : Graph} {size : Nat}

/-- What the events of a transcript add up to. -/
def total (amount : Event → M) (es : List Event) : M := (es.map amount).sum

theorem total_cons (e : Event) (es : List Event) :
    total amount (e :: es) = amount e + total amount es := by
  rw [total, List.map_cons, List.sum_cons, total]

theorem total_append (es es' : List Event) :
    total amount (es ++ es') = total amount es + total amount es' := by
  rw [total, List.map_append, List.sum_append, total, total]

theorem total_eq_zero {es : List Event} (h : ∀ e ∈ es, amount e = 0) : total amount es = 0 := by
  apply List.sum_eq_zero
  intro a ha
  obtain ⟨e, he, rfl⟩ := List.mem_map.mp ha
  exact h e he

theorem sum_map_flatMap {α β : Type} (xs : List α) (f : α → List β) (h : β → M) :
    ((xs.flatMap f).map h).sum = (xs.map fun x => ((f x).map h).sum).sum := by
  rw [List.map_flatMap, List.flatMap_def, List.sum_flatten, List.map_map]
  rfl

/-! ## Batches -/

/-- What an item amounts to, when a prefix stands for what it leads to. -/
def Item.value (amount : Event → M) (later : Tuple → M) : Item → M
  | .event e => amount e
  | .tuple t => later t

/-- **A sum does not see batches**: if the next step amounts to a sum over its batch, the
collecting loop amounts to a sum over its items and the prefixes it began with. -/
theorem total_batched {next : List Tuple → List Event} {later : Tuple → M}
    (hnext : ∀ b, total amount (next b) = (b.map later).sum) (batch : Array Tuple)
    (items : List Item) : total amount (batched size next batch items) =
      (batch.toList.map later).sum + (items.map (Item.value amount later)).sum := by
  induction items generalizing batch with
  | nil =>
    rw [batched, List.map_nil, List.sum_nil, add_zero]
    split
    · rename_i hempty
      rw [Array.isEmpty_iff] at hempty
      rw [hempty]
      rfl
    · exact hnext _
  | cons item rest ih =>
    rw [List.map_cons, List.sum_cons]
    cases item with
    | event e =>
      rw [batched, total_cons, ih, Item.value, add_left_comm]
    | tuple t =>
      have hpush : ((batch.push t).toList.map later).sum =
          (batch.toList.map later).sum + later t := by simp
      rw [batched, Item.value, ← add_assoc, ← hpush]
      split
      · rw [total_append, hnext, ih]
        simp
      · exact ih _

/-- What items amount to of their own, and what the prefixes among them lead to. -/
theorem sum_value (later : Tuple → M) (items : List Item) :
    (items.map (Item.value amount later)).sum =
      (items.map (Item.value amount fun _ => 0)).sum +
        ((items.filterMap Item.tuple?).map later).sum := by
  induction items with
  | nil => simp
  | cons item rest ih =>
    rw [List.map_cons, List.sum_cons, ih, List.map_cons, List.sum_cons]
    cases item with
    | event e => rw [List.filterMap_cons_none rfl, Item.value, Item.value, add_assoc]
    | tuple t =>
      have hitem : (Item.tuple t).tuple? = some t := rfl
      rw [List.filterMap_cons_some hitem, List.map_cons, List.sum_cons, Item.value, Item.value,
        zero_add, add_left_comm]

/-! ## Stages -/

/-- What a match amounts to when its batch is offered. -/
def Emits (amount : Event → M) (each : M) : Prop := ∀ batch : List Tuple,
  total amount [.worked { tuplesEmitted := batch.length }, .offered batch] = batch.length • each

/-- What the completion of a prefix by some stages amounts to, without batches. -/
def completionTotal (amount : Event → M) (each : M) (g : Graph) : List Stage → Tuple → M
  | [], _ => each
  | stage :: rest, t => total amount (extensionEvents g stage t) +
      ((candidatesAt g stage t).1.map fun v =>
        completionTotal amount each g rest (t ++ [v])).sum

theorem sum_value_stageItems (stage : Stage) (t : Tuple) (later : Tuple → M) :
    ((stageItems g stage t).map (Item.value amount later)).sum =
      total amount (extensionEvents g stage t) +
        ((candidatesAt g stage t).1.map fun v => later (t ++ [v])).sum := by
  rw [stageItems, List.map_append, List.sum_append, List.map_map, List.map_map]
  rfl

/-- **Through the remaining stages, a batch amounts to what its prefixes do.** -/
theorem total_transcript (hemits : Emits amount each) (stages : List Stage) (batch : List Tuple) :
    total amount (transcript g size stages batch) =
      (batch.map (completionTotal amount each g stages)).sum := by
  induction stages generalizing batch with
  | nil =>
    have hconst : (batch.map (completionTotal amount each g [])).sum = batch.length • each := by
      show (batch.map fun _ => each).sum = _
      rw [List.map_const', List.sum_replicate]
    rw [hconst]
    exact hemits batch
  | cons stage rest ih =>
    rw [transcript, total_batched ih, sum_map_flatMap]
    simp only [sum_value_stageItems, List.map_nil, List.sum_nil, zero_add]
    rfl

/-! ## Levels -/

/-- The prefixes that a stage makes of some prefixes. -/
def extended (g : Graph) (stage : Stage) (ts : List Tuple) : List Tuple :=
  ts.flatMap fun t => (candidatesAt g stage t).1.map fun v => t ++ [v]

theorem flatMap_completions_cons (stage : Stage) (rest : List Stage) (ts : List Tuple) :
    ts.flatMap (completions g (stage :: rest)) =
      (extended g stage ts).flatMap (completions g rest) := by
  simp only [extended, List.flatMap_assoc, List.flatMap_map]
  rfl

/-- **Stage by stage**: each stage extends every prefix that the stages before it yield, once, and
what all stages yield is offered. -/
theorem sum_completionTotal (stages : List Stage) (ts : List Tuple) :
    (ts.map (completionTotal amount each g stages)).sum =
      ∑ s ∈ Finset.range stages.length, ((ts.flatMap (completions g (stages.take s))).map
        fun t => total amount (extensionEvents g (stages.getD s []) t)).sum +
      (ts.flatMap (completions g stages)).length • each := by
  induction stages generalizing ts with
  | nil =>
    have hself : ts.flatMap (completions g []) = ts := List.flatMap_singleton' ts
    show (ts.map fun _ => each).sum = _
    rw [hself, List.map_const', List.sum_replicate, List.length_nil, Finset.sum_range_zero,
      zero_add]
  | cons stage rest ih =>
    -- the first stage sees the prefixes themselves, the others those that it makes of them
    have hself : ts.flatMap (completions g ((stage :: rest).take 0)) = ts :=
      List.flatMap_singleton' ts
    have hsum : (ts.map (completionTotal amount each g (stage :: rest))).sum =
        (ts.map fun t => total amount (extensionEvents g stage t)).sum +
          ((extended g stage ts).map (completionTotal amount each g rest)).sum := by
      simp only [extended, sum_map_flatMap, List.map_map, ← List.sum_map_add]
      rfl
    rw [hsum, ih, List.length_cons, Finset.sum_range_succ', hself, flatMap_completions_cons]
    simp only [List.take_succ_cons, flatMap_completions_cons, List.getD_cons_succ,
      List.getD_cons_zero]
    rw [← add_assoc, add_comm (List.sum _)]

/-! ## Plans -/

/-- What the first stage amounts to of its own. -/
def seedTotal (amount : Event → M) (g : Graph) (seed : Rule) (checks : List Rule) : M :=
  amount (.worked { seedsScanned := (seedEdges g seed).length }) +
    (((distinctPairs seed.view (seedEdges g seed)).flatMap (pairItems g seed checks)).map
      (Item.value amount fun _ => 0)).sum

/-- A plan amounts to its first stage and to the completion of what this stage yields. -/
theorem total_planEvents (hemits : Emits amount each) (seed : Rule) (checks : List Rule)
    (rest : List Stage) : total amount (planEvents g size ⟨(seed :: checks) :: rest⟩) =
      seedTotal amount g seed checks +
        ((seeds g seed checks).map (completionTotal amount each g rest)).sum := by
  rw [planEvents, total_cons, total_batched (total_transcript hemits rest), sum_value,
    filterMap_tuple?_pairItems, seedTotal, add_assoc]
  simp only [List.map_nil, List.sum_nil, zero_add]
  rfl

end Join
end DeltaMatch
