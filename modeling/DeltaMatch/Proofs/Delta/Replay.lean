import DeltaMatch.Proofs.Delta.Exactness
import Mathlib.Data.Set.Insert

/-!
# Replaying changes

Whoever holds the matches of the permanent view and carries out the batches of a delta,
one change after the other, ends up with the matches of the merged view, and never
inserts what is there or removes what is not.
-/

namespace DeltaMatch

/-- The single changes in delivered batches, in the order of their delivery. -/
def singleChanges (batches : List (Change × List Tuple)) : List (Change × Tuple) :=
  batches.flatMap fun b => b.2.map (b.1, ·)

/-- Carrying out the changes leads from the one set to the other, each emerged match being
absent and each deleted match being present when its turn comes. -/
inductive Replays : Set Tuple → List (Change × Tuple) → Set Tuple → Prop
  | nil {s : Set Tuple} : Replays s [] s
  | emerged {s s' : Set Tuple} {t : Tuple} {rest : List (Change × Tuple)} : t ∉ s →
      Replays (insert t s) rest s' → Replays s ((.emerged, t) :: rest) s'
  | deleted {s s' : Set Tuple} {t : Tuple} {rest : List (Change × Tuple)} : t ∈ s →
      Replays (s \ {t}) rest s' → Replays s ((.deleted, t) :: rest) s'

theorem singleChanges_append (b b' : List (Change × List Tuple)) :
    singleChanges (b ++ b') = singleChanges b ++ singleChanges b' := List.flatMap_append

theorem singleChanges_map (change : Change) (batches : List (List Tuple)) :
    singleChanges (batches.map (change, ·)) = batches.flatten.map (change, ·) := by
  rw [singleChanges, List.flatMap_map, List.map_flatten]
  rfl

namespace Replays

variable {s s' s'' : Set Tuple}

theorem append {changes changes' : List (Change × Tuple)} (h : Replays s changes s')
    (h' : Replays s' changes' s'') : Replays s (changes ++ changes') s'' := by
  induction h with
  | nil => exact h'
  | emerged habsent _ ih => exact .emerged habsent (ih h')
  | deleted hpresent _ ih => exact .deleted hpresent (ih h')

/-- Different absent matches can emerge one after the other. -/
theorem all_emerged {ts : List Tuple} (hnodup : ts.Nodup) (habsent : ∀ t ∈ ts, t ∉ s) :
    Replays s (ts.map (Change.emerged, ·)) (s ∪ {t | t ∈ ts}) := by
  induction ts generalizing s with
  | nil =>
    have hunion : s ∪ {t | t ∈ ([] : List Tuple)} = s := by simp
    rw [hunion]
    exact .nil
  | cons t rest ih =>
    obtain ⟨ht, hrest⟩ := List.nodup_cons.mp hnodup
    have hunion : s ∪ {t' | t' ∈ t :: rest} = insert t s ∪ {t' | t' ∈ rest} := by
      ext a
      simp only [Set.mem_union, Set.mem_ofPred_eq, List.mem_cons, Set.mem_insert_iff]
      tauto
    rw [hunion]
    refine .emerged (habsent t List.mem_cons_self) (ih hrest fun t' ht' hmem => ?_)
    rcases hmem with rfl | hmem
    · exact ht ht'
    · exact habsent t' (List.mem_cons_of_mem _ ht') hmem

/-- Different present matches can be deleted one after the other. -/
theorem all_deleted {ts : List Tuple} (hnodup : ts.Nodup) (hpresent : ∀ t ∈ ts, t ∈ s) :
    Replays s (ts.map (Change.deleted, ·)) (s \ {t | t ∈ ts}) := by
  induction ts generalizing s with
  | nil =>
    have hdiff : s \ {t | t ∈ ([] : List Tuple)} = s := by
      ext a
      simp
    rw [hdiff]
    exact .nil
  | cons t rest ih =>
    obtain ⟨ht, hrest⟩ := List.nodup_cons.mp hnodup
    have hdiff : s \ {t' | t' ∈ t :: rest} = (s \ {t}) \ {t' | t' ∈ rest} := by
      ext a
      simp only [Set.mem_sdiff, Set.mem_ofPred_eq, List.mem_cons, Set.mem_singleton_iff]
      tauto
    rw [hdiff]
    refine .deleted (hpresent t List.mem_cons_self) (ih hrest fun t' ht' => ⟨?_, ?_⟩)
    · exact hpresent t' (List.mem_cons_of_mem _ ht')
    · rintro rfl
      exact ht ht'

end Replays

/-- **A delta replays** from the matches before the commit to those after it. -/
theorem Pattern.Changes.replays {p : Pattern} {g : Graph} {c : ChangeSet} (hc : p.Changes g c)
    (n : Nat) : Replays {a | p.Holds g .permanent a} (singleChanges (changeBatches n c))
      {a | p.Holds g .merged a} := by
  have hemerged := hc.mem_emerged
  have hdeleted := hc.mem_deleted
  rw [changeBatches, singleChanges_append, singleChanges_map, singleChanges_map,
    flatten_chunksOf, flatten_chunksOf]
  have hresult : ({a | p.Holds g .permanent a} ∪ {a | a ∈ sortTuples c.emerged}) \
      {a | a ∈ sortTuples c.deleted} = {a | p.Holds g .merged a} := by
    ext a
    simp only [Set.mem_sdiff, Set.mem_union, Set.mem_ofPred_eq, mem_sortTuples, hemerged, hdeleted]
    tauto
  rw [← hresult]
  refine .append (.all_emerged ((sortTuples_perm _).nodup_iff.mpr hc.nodup_emerged) ?_)
    (.all_deleted ((sortTuples_perm _).nodup_iff.mpr hc.nodup_deleted) ?_)
  · intro a ha
    exact ((hemerged a).mp (mem_sortTuples.mp ha)).2
  · intro a ha
    exact Or.inl ((hdeleted a).mp (mem_sortTuples.mp ha)).1

end DeltaMatch
