import DeltaMatch.Proofs.Join.Candidates
import Mathlib.Data.Set.Card

/-!
# The intersections of an extension

An extension begins with the shortest list of its stage and goes on to intersect with the others
in the order of their rules, for as long as there are vertices left. Which lists it gets to is a
matter of what the rules admit.
-/

namespace DeltaMatch
namespace Join

variable {g : Graph} {stage : Stage} {t : Tuple} {d d' i j : Nat}

/-- The rule at the position drives the extension of the prefix: no rule has a shorter list, and
the rules before it have longer ones. -/
def Drives (g : Graph) (stage : Stage) (t : Tuple) (d : Nat) : Prop :=
  ∃ r, stage[d]? = some r ∧ ∀ i r', stage[i]? = some r' →
    (listAt g t r).size ≤ (listAt g t r').size ∧
      (i < d → (listAt g t r).size < (listAt g t r').size)

/-- The positions of the rules whose lists are intersected with: the driver is not among them,
and there still is a vertex that the driver and all rules before admit. -/
def intersected (g : Graph) (stage : Stage) (t : Tuple) : Set Nat :=
  {i | i < stage.length ∧ ∃ d, Drives g stage t d ∧ i ≠ d ∧
    ∃ v, ∀ j r, stage[j]? = some r → j = d ∨ j < i → r.Admits g (vertexAt t r.slot) v}

/-! ## The driver -/

theorem driverOf_spec {lists : List NeighbourList} (hne : lists ≠ []) :
    ∃ l, lists[driverOf lists]? = some l ∧ ∀ i l', lists[i]? = some l' →
      l.size ≤ l'.size ∧ (i < driverOf lists → l.size < l'.size) := by
  have hlt := driverOf_lt hne
  obtain ⟨hshortest, hbefore⟩ := (List.findIdx_eq hlt).mp (Eq.refl (driverOf lists))
  simp only [List.all_eq_true, decide_eq_true_eq, List.all_eq_false] at hshortest hbefore
  refine ⟨_, List.getElem?_eq_getElem hlt, fun i l' hi => ?_⟩
  obtain ⟨hlength, rfl⟩ := List.getElem?_eq_some_iff.mp hi
  refine ⟨hshortest _ (List.getElem_mem hlength), fun hearlier => ?_⟩
  -- a list before the driver is longer than some list, and so than the driver's
  obtain ⟨l, hl, hlonger⟩ := hbefore i hearlier
  exact Nat.lt_of_le_of_lt (hshortest l hl) (Nat.lt_of_not_le hlonger)

theorem drives_driverOf (hne : stage ≠ []) :
    Drives g stage t (driverOf (stage.map (listAt g t))) := by
  have hlists : stage.map (listAt g t) ≠ [] := by simpa using hne
  obtain ⟨l, hl, hspec⟩ := driverOf_spec hlists
  rw [List.getElem?_map, Option.map_eq_some_iff] at hl
  obtain ⟨r, hr, rfl⟩ := hl
  refine ⟨r, hr, fun i r' hi => hspec i _ ?_⟩
  rw [List.getElem?_map, hi]
  rfl

theorem Drives.unique (h : Drives g stage t d) (h' : Drives g stage t d') : d = d' := by
  obtain ⟨r, hr, hmin⟩ := h
  obtain ⟨r', hr', hmin'⟩ := h'
  have hle := hmin d' r' hr'
  have hle' := hmin' d r hr
  by_contra hne
  rcases Nat.lt_or_gt_of_ne hne with hlt | hlt
  · have := hle'.2 hlt
    omega
  · have := hle.2 hlt
    omega

/-! ## Positions with one left out -/

/-- The position in a list of what is at the position when one is left out. -/
def skip (d i : Nat) : Nat := if i < d then i else i + 1

theorem skip_ne : skip d i ≠ d := by
  rw [skip]
  split <;> omega

theorem skip_lt_skip_iff : skip d j < skip d i ↔ j < i := by
  rw [skip, skip]
  split <;> split <;> omega

theorem skip_injective (d : Nat) : Function.Injective (skip d) := by
  intro i j h
  rcases Nat.lt_trichotomy i j with hlt | rfl | hlt
  · have := skip_lt_skip_iff (d := d).mpr hlt
    omega
  · rfl
  · have := skip_lt_skip_iff (d := d).mpr hlt
    omega

theorem exists_skip (h : i ≠ d) : ∃ j, skip d j = i := by
  rcases Nat.lt_or_gt_of_ne h with hlt | hlt
  · exact ⟨i, if_pos hlt⟩
  · refine ⟨i - 1, ?_⟩
    rw [skip, if_neg (by omega)]
    omega

theorem skip_lt_iff {n : Nat} (hd : d < n) : skip d i < n ↔ i < n - 1 := by
  rw [skip]
  split <;> omega

theorem getElem?_eraseIdx_skip {α : Type} (xs : List α) (d i : Nat) :
    (xs.eraseIdx d)[i]? = xs[skip d i]? := by
  rw [List.getElem?_eraseIdx, skip]
  split <;> rfl

/-! ## Narrowing -/

/-- The positions that narrowing gets to: some candidate is in all lists before. -/
def reached (ruled : List (Rule × NeighbourList)) (candidates : List VertexId) : Set Nat :=
  {i | i < ruled.length ∧ ∃ v ∈ candidates, ∀ j x, ruled[j]? = some x → j < i →
    x.2.contains v x.1.filter = true}

theorem finite_reached (ruled : List (Rule × NeighbourList)) (candidates : List VertexId) :
    (reached ruled candidates).Finite :=
  (Set.finite_lt_nat ruled.length).subset fun _ hi => hi.1

theorem reached_nil (ruled : List (Rule × NeighbourList)) : reached ruled [] = ∅ := by
  rw [Set.eq_empty_iff_forall_notMem]
  rintro i ⟨-, v, hv, -⟩
  cases hv

/-- Where there are candidates, the first list is reached, and then what is reached with the
candidates that are in it. -/
theorem reached_cons {r : Rule} {l : NeighbourList} {rest : List (Rule × NeighbourList)}
    {candidates : List VertexId} (hne : candidates ≠ []) : reached ((r, l) :: rest) candidates =
      insert 0 (Nat.succ '' reached rest (candidates.filter (l.contains · r.filter))) := by
  ext i
  cases i with
  | zero =>
    obtain ⟨v, hv⟩ := List.exists_mem_of_ne_nil _ hne
    refine iff_of_true ⟨by simp, v, hv, fun j x _ hj => ?_⟩ (Set.mem_insert _ _)
    exact absurd hj (Nat.not_lt_zero j)
  | succ i =>
    rw [Set.mem_insert_iff, or_iff_right (Nat.succ_ne_zero i),
      Function.Injective.mem_set_image Nat.succ_injective]
    refine and_congr (by simp) ?_
    simp only [List.mem_filter, and_assoc]
    refine exists_congr fun v => and_congr_right fun _ => ?_
    constructor
    · intro h
      refine ⟨h 0 (r, l) rfl (Nat.succ_pos i), fun j x hj hlt => ?_⟩
      exact h (j + 1) x hj (Nat.succ_lt_succ hlt)
    · rintro ⟨hfirst, hrest⟩ j x hj hlt
      cases j with
      | zero =>
        cases hj
        exact hfirst
      | succ j => exact hrest j x hj (Nat.lt_of_succ_lt_succ hlt)

/-- **Narrowing counts the lists that it gets to.** -/
theorem narrow_snd {ruled : List (Rule × NeighbourList)} {candidates : List VertexId}
    (h : candidates.Pairwise (· < ·)) :
    (narrow ruled candidates).2 = (reached ruled candidates).ncard := by
  induction ruled generalizing candidates with
  | nil =>
    have hempty : reached [] candidates = ∅ := by
      rw [Set.eq_empty_iff_forall_notMem]
      exact fun i hi => Nat.not_lt_zero i hi.1
    rw [hempty, Set.ncard_empty]
    rfl
  | cons x rest ih =>
    obtain ⟨r, l⟩ := x
    rw [narrow]
    split
    · rename_i hempty
      rw [List.isEmpty_iff.mp hempty, reached_nil, Set.ncard_empty]
    · rename_i hne
      have hzero : 0 ∉ Nat.succ '' reached rest (candidates.filter (l.contains · r.filter)) := by
        rintro ⟨i, -, hi⟩
        exact Nat.succ_ne_zero i hi
      rw [reached_cons (by simpa using hne), Set.ncard_insert_of_notMem hzero
        ((finite_reached _ _).image _), Set.ncard_image_of_injective _ Nat.succ_injective]
      show (narrow rest (l.intersection candidates r.filter)).2 + 1 = _
      rw [NeighbourList.intersection_of_ascending h, ih (h.filter _)]

/-! ## The intersections of a prefix -/

/-- Leaving the driver out, narrowing gets to the rules that are intersected with. -/
theorem skip_mem_intersected_iff (hg : g.WellFormed) {r : Rule}
    (hview : ∀ r ∈ stage, r.view.isIndexable = true) (hd : Drives g stage t d)
    (hr : stage[d]? = some r) : skip d i ∈ intersected g stage t ↔
      i ∈ reached ((stage.map fun r => (r, listAt g t r)).eraseIdx d)
        ((listAt g t r).filteredIds r.filter) := by
  have hadmits : ∀ {j r' v}, stage[j]? = some r' →
      ((listAt g t r').contains v r'.filter = true ↔ r'.Admits g (vertexAt t r'.slot) v) :=
    fun hj => hg.contains_rule (hview _ (List.mem_of_getElem? hj))
  have hlt := (List.getElem?_eq_some_iff.mp hr).1
  have hlength : ((stage.map fun r => (r, listAt g t r)).eraseIdx d).length = stage.length - 1 := by
    rw [List.length_eraseIdx_of_lt (by rwa [List.length_map]), List.length_map]
  rw [intersected, reached, Set.mem_ofPred_eq, Set.mem_ofPred_eq, hlength, skip_lt_iff hlt]
  refine and_congr_right fun _ => ?_
  simp only [getElem?_eraseIdx_skip, List.getElem?_map, Option.map_eq_some_iff]
  constructor
  · rintro ⟨d', hd', -, v, hv⟩
    obtain rfl := hd.unique hd'
    refine ⟨v, NeighbourList.mem_filteredIds.mpr ((hadmits hr).mpr (hv _ r hr (Or.inl rfl))), ?_⟩
    rintro j - ⟨r', hr', rfl⟩ hj
    exact (hadmits hr').mpr (hv _ r' hr' (Or.inr (skip_lt_skip_iff.mpr hj)))
  · rintro ⟨v, hv, hrest⟩
    -- a rule before the position is the driver or one that narrowing has been through
    refine ⟨d, hd, skip_ne, v, fun j r' hr' hj => (hadmits hr').mp ?_⟩
    by_cases hjd : j = d
    · subst hjd
      obtain rfl := Option.some.inj (hr.symm.trans hr')
      exact NeighbourList.mem_filteredIds.mp hv
    · obtain ⟨j, rfl⟩ := exists_skip hjd
      exact hrest j _ ⟨r', hr', rfl⟩ (skip_lt_skip_iff.mp (hj.resolve_left hjd))

/-- **The intersections of an extension are counted by the rules that it gets to.** -/
theorem snd_candidatesAt (hg : g.WellFormed) (hne : stage ≠ [])
    (hview : ∀ r ∈ stage, r.view.isIndexable = true) :
    (candidatesAt g stage t).2 = (intersected g stage t).ncard := by
  have hdrives := drives_driverOf (g := g) (t := t) hne
  obtain ⟨r, hr, -⟩ := id hdrives
  have hdriver : (stage.map fun r => (r, listAt g t r))[driverOf (stage.map (listAt g t))]? =
      some (r, listAt g t r) := by
    rw [List.getElem?_map, hr]
    rfl
  rw [candidatesAt, candidatesOf]
  simp only [zip_map_listAt, hdriver]
  rw [narrow_snd ((listAt g t r).filteredIds_ascending r.filter),
    ← Set.ncard_image_of_injective _ (skip_injective (driverOf (stage.map (listAt g t))))]
  congr 1
  ext i
  constructor
  · rintro ⟨j, hj, rfl⟩
    exact (skip_mem_intersected_iff hg hview hdrives hr).mpr hj
  · intro hi
    obtain ⟨-, d, hd, hne, -⟩ := id hi
    rw [hd.unique hdrives] at hne
    obtain ⟨j, rfl⟩ := exists_skip hne
    exact ⟨j, (skip_mem_intersected_iff hg hview hdrives hr).mp hi, rfl⟩

end Join
end DeltaMatch
