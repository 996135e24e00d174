import DeltaMatch.Proofs.Delta.Netting
import DeltaMatch.Proofs.Pattern.Acceptance
import Mathlib.Algebra.Ring.Int.Defs

/-!
# The terms of a delta

The term of an edge reads that edge from a log, the edges before it from the merged view
and the edges after it from the permanent one. For one assignment, the terms of the two
logs differ by the step from one mixed view to the next, and these steps add up to the
difference between the merged and the permanent view.
-/

namespace DeltaMatch

/-! ## Edges -/

section Edges

variable {g : Graph} {e : PatternEdge} {a : Tuple}

/-- With both endpoints given, an edge holds if its view relates them. -/
theorem PatternEdge.holds_iff_relates {view : View} {u v : VertexId} (hu : a[e.source]? = some u)
    (hv : a[e.target]? = some v) : e.Holds g view a ↔ g.Relates view e.filter u v := by
  constructor
  · intro h
    obtain ⟨u', v', hu', hv', hrelates⟩ := h
    rw [hu] at hu'
    rw [hv] at hv'
    cases hu'
    cases hv'
    exact hrelates
  · exact fun hrelates => ⟨u, v, hu, hv, hrelates⟩

/-- An edge holds in a difference of views if it holds in the one and not in the other. -/
theorem PatternEdge.holds_difference {diff view view' : View}
    (h : ∀ u v, g.Relates diff e.filter u v ↔
      g.Relates view e.filter u v ∧ ¬ g.Relates view' e.filter u v) :
    e.Holds g diff a ↔ e.Holds g view a ∧ ¬ e.Holds g view' a := by
  by_cases hends : ∃ u v, a[e.source]? = some u ∧ a[e.target]? = some v
  · obtain ⟨u, v, hu, hv⟩ := hends
    rw [holds_iff_relates hu hv, holds_iff_relates hu hv, holds_iff_relates hu hv]
    exact h u v
  · -- an edge without endpoints holds in no view
    have hnone : ∀ view, ¬ e.Holds g view a := by
      intro view hholds
      obtain ⟨u, v, hu, hv, -⟩ := hholds
      exact hends ⟨u, v, hu, hv⟩
    exact ⟨fun hholds => absurd hholds (hnone _), fun hholds => absurd hholds.1 (hnone _)⟩

theorem PatternEdge.holds_diffPlus_iff :
    e.Holds g .diffPlus a ↔ e.Holds g .merged a ∧ ¬ e.Holds g .permanent a :=
  holds_difference fun _ _ => Iff.rfl

theorem PatternEdge.holds_diffMinus_iff :
    e.Holds g .diffMinus a ↔ e.Holds g .permanent a ∧ ¬ e.Holds g .merged a :=
  holds_difference fun _ _ => Iff.rfl

/-- Nothing is in the relation of an empty log. -/
theorem Graph.WellFormed.not_relates_of_isEmpty (hg : g.WellFormed) {diff : View} {log : EditLog}
    (hlog : g.diff diff = .ok log) (hempty : log.isEmpty = true) {filter : Label}
    {u v : VertexId} : ¬ g.Relates diff filter u v := by
  -- the edge that joins the pair in the one state is in the other, or it would be logged
  cases diff with
  | permanent | merged => cases hlog
  | diffPlus =>
    cases hlog
    have hnil := hg.plus_indexed.isEmpty_iff.mp hempty
    intro h
    obtain ⟨⟨label, haccepts, hmerged⟩, hnot⟩ := h
    refine hnot ⟨label, haccepts, ?_⟩
    by_contra hpermanent
    have hmem := (hg.mem_plus _).mpr ⟨hmerged, hpermanent⟩
    rw [hnil] at hmem
    cases hmem
  | diffMinus =>
    cases hlog
    have hnil := hg.minus_indexed.isEmpty_iff.mp hempty
    intro h
    obtain ⟨⟨label, haccepts, hpermanent⟩, hnot⟩ := h
    refine hnot ⟨label, haccepts, ?_⟩
    by_contra hmerged
    have hmem := (hg.mem_minus _).mpr ⟨hpermanent, hmerged⟩
    rw [hnil] at hmem
    cases hmem

end Edges

namespace Pattern

variable {p : Pattern} {g : Graph} {a : Tuple}

/-! ## Views by edge number -/

theorem assigns_range_map {viewOf : Nat → View} :
    p.Assigns g ((List.range p.edges.length).map viewOf) a ↔ a.length = p.vars.length ∧
      ∀ (i : Nat) (e : PatternEdge), p.edges[i]? = some e → e.Holds g (viewOf i) a := by
  refine and_congr_right fun _ => ?_
  have hget : ∀ (i : Nat) (e : PatternEdge), p.edges[i]? = some e →
      ((List.range p.edges.length).map viewOf)[i]? = some (viewOf i) := by
    intro i e hi
    rw [List.getElem?_map, List.getElem?_range (List.getElem?_eq_some_iff.mp hi).1]
    rfl
  constructor
  · exact fun h i e hi => h i e _ hi (hget i e hi)
  · intro h i e view hi hview
    rw [hget i e hi] at hview
    cases hview
    exact h i e hi

/-- The assignment with one edge set apart. -/
theorem assigns_apart {viewOf : Nat → View} {edge : Nat} {e : PatternEdge}
    (he : p.edges[edge]? = some e) :
    p.Assigns g ((List.range p.edges.length).map viewOf) a ↔
      (a.length = p.vars.length ∧ ∀ (i : Nat) (e : PatternEdge), i ≠ edge →
        p.edges[i]? = some e → e.Holds g (viewOf i) a) ∧ e.Holds g (viewOf edge) a := by
  rw [assigns_range_map]
  constructor
  · intro h
    obtain ⟨hlength, h⟩ := h
    exact ⟨⟨hlength, fun i e' _ hi => h i e' hi⟩, h edge e he⟩
  · intro h
    obtain ⟨⟨hlength, hothers⟩, hedge⟩ := h
    refine ⟨hlength, fun i e' hi => ?_⟩
    by_cases heq : i = edge
    · subst heq
      rw [he] at hi
      cases hi
      exact hedge
    · exact hothers i e' heq hi

/-- The mixed view in which the first edges are read from the merged view. -/
def mixedViews (edges merged : Nat) : List View :=
  (List.range edges).map fun i => if i < merged then .merged else .permanent

theorem assigns_mixedViews_zero :
    p.Assigns g (mixedViews p.edges.length 0) a ↔ p.Holds g .permanent a := by
  rw [← assigns_const, mixedViews]
  simp [List.map_const']

theorem assigns_mixedViews_length :
    p.Assigns g (mixedViews p.edges.length p.edges.length) a ↔ p.Holds g .merged a := by
  rw [mixedViews, assigns_range_map, Holds]
  refine and_congr_right fun _ => ?_
  constructor
  · intro h e he
    obtain ⟨i, hi⟩ := List.mem_iff_getElem?.mp he
    have hholds := h i e hi
    rwa [if_pos (List.getElem?_eq_some_iff.mp hi).1] at hholds
  · intro h i e hi
    rw [if_pos (List.getElem?_eq_some_iff.mp hi).1]
    exact h e (List.mem_of_getElem? hi)

/-! ## Adding up the terms -/

open Classical in
/-- One for what holds and zero for what does not. -/
noncomputable def indicator (holds : Prop) : Int := if holds then 1 else 0

theorem indicator_congr {b c : Prop} (h : b ↔ c) : indicator b = indicator c := by
  rw [propext h]

theorem indicator_of_not {b : Prop} (h : ¬ b) : indicator b = 0 := if_neg h

/-- Coming to hold counts for one, ceasing to hold against one. -/
theorem indicator_step (others after before : Prop) :
    indicator (others ∧ after ∧ ¬ before) - indicator (others ∧ before ∧ ¬ after) =
      indicator (others ∧ after) - indicator (others ∧ before) := by
  by_cases hothers : others <;> by_cases hafter : after <;> by_cases hbefore : before <;>
    simp [indicator, hothers, hafter, hbefore]

/-- The weight of a mixed view for an assignment. -/
noncomputable def mixed (p : Pattern) (g : Graph) (a : Tuple) (merged : Nat) : Int :=
  indicator (p.Assigns g (mixedViews p.edges.length merged) a)

/-- The weight of a term for an assignment. -/
noncomputable def term (p : Pattern) (g : Graph) (a : Tuple) (diff : View) (edge : Nat) : Int :=
  indicator (p.Assigns g (deltaViews diff p.edges.length edge) a)

/-- **The two terms of an edge make the step** from one mixed view to the next. -/
theorem term_sub_term {edge : Nat} (hedge : edge < p.edges.length) :
    p.term g a .diffPlus edge - p.term g a .diffMinus edge =
      p.mixed g a (edge + 1) - p.mixed g a edge := by
  have he := List.getElem?_eq_getElem hedge
  -- what the four views ask of the other edges is the same
  let others : Prop := a.length = p.vars.length ∧ ∀ (i : Nat) (e : PatternEdge), i ≠ edge →
    p.edges[i]? = some e → e.Holds g (if i < edge then .merged else .permanent) a
  have hterm : ∀ diff, p.Assigns g (deltaViews diff p.edges.length edge) a ↔
      others ∧ p.edges[edge].Holds g diff a := by
    intro diff
    rw [deltaViews, assigns_apart he]
    simp only [Nat.lt_irrefl, if_false, if_true]
    refine and_congr_left fun _ => and_congr_right fun _ => ?_
    refine forall_congr' fun i => forall_congr' fun e => forall_congr' fun hne => ?_
    rw [if_neg hne]
  have hnext : p.Assigns g (mixedViews p.edges.length (edge + 1)) a ↔
      others ∧ p.edges[edge].Holds g .merged a := by
    rw [mixedViews, assigns_apart he, if_pos (Nat.lt_succ_self edge)]
    refine and_congr_left fun _ => and_congr_right fun _ => ?_
    refine forall_congr' fun i => forall_congr' fun e => forall_congr' fun hne => ?_
    have hlt : (i < edge + 1) = (i < edge) := propext (by omega)
    simp only [hlt]
  have hprev : p.Assigns g (mixedViews p.edges.length edge) a ↔
      others ∧ p.edges[edge].Holds g .permanent a := by
    rw [mixedViews, assigns_apart he, if_neg (Nat.lt_irrefl edge)]
  have hplus := (hterm .diffPlus).trans (and_congr_right fun _ => PatternEdge.holds_diffPlus_iff)
  have hminus := (hterm .diffMinus).trans (and_congr_right fun _ => PatternEdge.holds_diffMinus_iff)
  rw [term, term, mixed, mixed, indicator_congr hplus, indicator_congr hminus,
    indicator_congr hnext, indicator_congr hprev]
  exact indicator_step others _ _

/-- The terms of a log added up for an assignment. -/
noncomputable def terms (p : Pattern) (g : Graph) (a : Tuple) (diff : View) (n : Nat) : Int :=
  ((List.range n).map (p.term g a diff)).sum

/-- The first terms lead from the permanent view to a mixed one. -/
theorem terms_sub_terms {n : Nat} (hn : n ≤ p.edges.length) :
    p.terms g a .diffPlus n - p.terms g a .diffMinus n = p.mixed g a n - p.mixed g a 0 := by
  induction n with
  | zero => simp [terms]
  | succ n ih =>
    have hlt : n < p.edges.length := by omega
    have hstep := term_sub_term (p := p) (g := g) (a := a) hlt
    have hrest := ih (by omega)
    simp only [terms, List.range_succ, List.map_append, List.map_cons, List.map_nil,
      List.sum_append, List.sum_singleton] at hrest ⊢
    omega

/-- **The terms telescope** to the difference between the two states. -/
theorem terms_telescope :
    p.terms g a .diffPlus p.edges.length - p.terms g a .diffMinus p.edges.length =
      indicator (p.Holds g .merged a) - indicator (p.Holds g .permanent a) := by
  rw [terms_sub_terms (Nat.le_refl _), mixed, mixed, indicator_congr assigns_mixedViews_length,
    indicator_congr assigns_mixedViews_zero]

/-- The terms of an empty log are zero. -/
theorem terms_of_isEmpty (hg : g.WellFormed) {diff : View} {log : EditLog}
    (hlog : g.diff diff = .ok log) (hempty : log.isEmpty = true) :
    p.terms g a diff p.edges.length = 0 := by
  have hzero : ∀ edge ∈ List.range p.edges.length, p.term g a diff edge = 0 := by
    intro edge hedge
    have he := List.getElem?_eq_getElem (List.mem_range.mp hedge)
    refine indicator_of_not fun hassigns => ?_
    rw [deltaViews, assigns_apart he] at hassigns
    obtain ⟨-, u, v, -, -, hrelates⟩ := hassigns
    simp only [Nat.lt_irrefl, if_false, if_true] at hrelates
    exact hg.not_relates_of_isEmpty hlog hempty hrelates
  rw [terms, List.map_congr_left hzero]
  simp

end Pattern
end DeltaMatch
