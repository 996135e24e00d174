import DeltaMatch.Sink

/-!
# Sinks under a record

Batches are offered until one is turned down. A sink can be put under a record without
noticing, and the record then holds every batch up to there.
-/

namespace DeltaMatch
namespace Sink

variable {σ β : Type} {sink : Sink σ β} {s s' : σ}

/-- No batch is ever turned down from the state on. -/
def Accepts (sink : Sink σ β) (s : σ) : Prop := ∀ batches, (sink.offerAll s batches).2 = none

theorem offerAll_cons_of_accepted {b : β} {rest : List β} (h : sink s b = (s', none)) :
    sink.offerAll s (b :: rest) = sink.offerAll s' rest := by
  rw [offerAll, h]

theorem offerAll_cons_of_rejected {b : β} {rest : List β} {e : GraphError}
    (h : sink s b = (s', some e)) : sink.offerAll s (b :: rest) = (s', some e) := by
  rw [offerAll, h]

theorem offerAll_append {b b' : List β} (h : (sink.offerAll s b).2 = none) :
    sink.offerAll s (b ++ b') = sink.offerAll (sink.offerAll s b).1 b' := by
  induction b generalizing s with
  | nil => rfl
  | cons x rest ih =>
    rw [List.cons_append]
    rcases hsink : sink s x with ⟨s', _ | e⟩
    · rw [offerAll_cons_of_accepted hsink] at h
      rw [offerAll_cons_of_accepted hsink, offerAll_cons_of_accepted hsink]
      exact ih h
    · rw [offerAll_cons_of_rejected hsink] at h
      cases h

theorem Accepts.offerAll (h : sink.Accepts s) (b : List β) :
    sink.Accepts (sink.offerAll s b).1 := by
  intro b'
  rw [← offerAll_append (h b)]
  exact h (b ++ b')

/-- An error in the end is the sink's own reason for turning a batch down. -/
theorem exists_rejected {batches : List β} {e : GraphError}
    (h : (sink.offerAll s batches).2 = some e) : ∃ s' b, (sink s' b).2 = some e := by
  induction batches generalizing s with
  | nil => cases h
  | cons b rest ih =>
    rcases hsink : sink s b with ⟨s', _ | e'⟩
    · rw [offerAll_cons_of_accepted hsink] at h
      exact ih h
    · rw [offerAll_cons_of_rejected hsink] at h
      exact ⟨s, b, by rw [hsink, ← h]⟩

/-- A sink that never turns a batch down accepts them all. -/
theorem accepts_of_forall (h : ∀ s b, (sink s b).2 = none) (s : σ) : sink.Accepts s := by
  intro batches
  induction batches generalizing s with
  | nil => rfl
  | cons b rest ih =>
    have hsink : sink s b = ((sink s b).1, none) := Prod.ext rfl (h s b)
    rw [offerAll_cons_of_accepted hsink]
    exact ih _

/-- The batches that get to a sink: all up to and including the first that it turns down. -/
def heard (sink : Sink σ β) : σ → List β → List β
  | _, [] => []
  | s, b :: rest =>
    match sink s b with
    | (s', none) => b :: heard sink s' rest
    | (_, some _) => [b]

/-- An accepting sink gets every batch. -/
theorem Accepts.heard_eq (h : sink.Accepts s) (b : List β) : sink.heard s b = b := by
  induction b generalizing s with
  | nil => rfl
  | cons x rest ih =>
    rcases hsink : sink s x with ⟨s', _ | e⟩
    · have hrest : sink.Accepts s' := by
        have hafter := h.offerAll [x]
        rwa [offerAll_cons_of_accepted hsink] at hafter
      rw [heard, hsink]
      simp only
      rw [ih hrest]
    · have hx := h [x]
      rw [offerAll_cons_of_rejected hsink] at hx
      cases hx

/-- **Where a sink stops**: it takes all the batches, or turns one down and hears of none after
it. -/
theorem heard_cases (sink : Sink σ β) (s : σ) (batches : List β) :
    ((sink.offerAll s batches).2 = none ∧ sink.heard s batches = batches) ∨
      ∃ before b after s' s'' e, batches = before ++ b :: after ∧
        sink.offerAll s before = (s', none) ∧ sink s' b = (s'', some e) ∧
        sink.heard s batches = before ++ [b] ∧ sink.offerAll s batches = (s'', some e) := by
  induction batches generalizing s with
  | nil => exact Or.inl ⟨rfl, rfl⟩
  | cons b rest ih =>
    rcases hsink : sink s b with ⟨t, _ | e⟩
    · have hheard : sink.heard s (b :: rest) = b :: sink.heard t rest := by
        rw [heard, hsink]
      rw [offerAll_cons_of_accepted hsink, hheard]
      rcases ih t with ⟨hnone, heq⟩ | ⟨before, x, after, s', s'', e, rfl, hbefore, hx, heq, hafter⟩
      · exact Or.inl ⟨hnone, by rw [heq]⟩
      · refine Or.inr ⟨b :: before, x, after, s', s'', e, rfl, ?_, hx, by rw [heq]; rfl, hafter⟩
        rw [offerAll_cons_of_accepted hsink, hbefore]
    · -- the very first batch is turned down
      exact Or.inr ⟨[], b, rest, s, t, e, rfl, rfl, hsink, by rw [heard, hsink]; rfl,
        offerAll_cons_of_rejected hsink⟩

theorem heard_isPrefix (sink : Sink σ β) (s : σ) (batches : List β) :
    sink.heard s batches <+: batches := by
  rcases heard_cases sink s batches with ⟨-, heq⟩ | ⟨before, b, after, -, -, -, rfl, -, -, heq, -⟩
  · exact ⟨[], by rw [heq, List.append_nil]⟩
  · rw [heq]
    exact ⟨after, by rw [List.append_assoc, List.singleton_append]⟩

/-- The sink with a record of every batch it is offered. -/
def recording (sink : Sink σ β) : Sink (σ × List β) β := fun (s, offered) b =>
  (((sink s b).1, offered ++ [b]), (sink s b).2)

/-- The record holds what got to the sink, and changes none of its answers. -/
theorem recording_offerAll (s : σ) (offered b : List β) :
    sink.recording.offerAll (s, offered) b =
      (((sink.offerAll s b).1, offered ++ sink.heard s b), (sink.offerAll s b).2) := by
  induction b generalizing s offered with
  | nil => simp [Sink.offerAll, heard]
  | cons x rest ih =>
    rcases hsink : sink s x with ⟨s', _ | e⟩
    · have hrecorded : sink.recording (s, offered) x = ((s', offered ++ [x]), none) := by
        rw [recording, hsink]
      rw [offerAll_cons_of_accepted hsink, offerAll_cons_of_accepted hrecorded, ih, heard, hsink,
        List.append_assoc]
      rfl
    · have hrecorded : sink.recording (s, offered) x = ((s', offered ++ [x]), some e) := by
        rw [recording, hsink]
      rw [offerAll_cons_of_rejected hsink, offerAll_cons_of_rejected hrecorded, heard, hsink]

end Sink

/-! ## The collecting sinks -/

theorem collectTuples_offerAll (rows : Array Tuple) (batches : List (List Tuple)) :
    collectTuples.offerAll rows batches = (rows ++ batches.flatten, none) := by
  induction batches generalizing rows with
  | nil => simp [Sink.offerAll]
  | cons b rest ih =>
    show collectTuples.offerAll (rows ++ b) rest = _
    rw [ih]
    exact congrArg (·, none) (Array.ext' (by simp))

theorem collectTuples_accepts (rows : Array Tuple) : collectTuples.Accepts rows :=
  Sink.accepts_of_forall (fun _ _ => rfl) rows

namespace ChangeSet

theorem collect_accepts (c : ChangeSet) : collect.Accepts c := by
  refine Sink.accepts_of_forall (fun c b => ?_) c
  obtain ⟨change, batch⟩ := b
  cases change <;> rfl

theorem collect_offerAll_emerged (c : ChangeSet) (batches : List (List Tuple)) :
    collect.offerAll c (batches.map (Change.emerged, ·)) =
      ({ c with emerged := c.emerged ++ batches.flatten }, none) := by
  induction batches generalizing c with
  | nil => simp [Sink.offerAll]
  | cons b rest ih => simp [Sink.offerAll, collect, ih]

theorem collect_offerAll_deleted (c : ChangeSet) (batches : List (List Tuple)) :
    collect.offerAll c (batches.map (Change.deleted, ·)) =
      ({ c with deleted := c.deleted ++ batches.flatten }, none) := by
  induction batches generalizing c with
  | nil => simp [Sink.offerAll]
  | cons b rest ih => simp [Sink.offerAll, collect, ih]

end ChangeSet
end DeltaMatch
