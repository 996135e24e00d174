import DeltaMatch.Proofs.Pattern.Connectivity
import DeltaMatch.Proofs.Plan.Validity

/-!
# What the planner accepts

An ordering in which each variable is linked to an earlier one leaves no stage without
rules, and the rules of its stages read bound slots only. With the seed in the first
stage and every other edge read from a state, the planner comes up with a plan, and it
accepts nothing else.
-/

namespace DeltaMatch
namespace Pattern

variable {p : Pattern} {ordering : List Nat} {views : List View} {seed : Nat}

/-- What the planner asks for: a pattern with edges and without self loops, a view for each
edge, an order of all variables that the seed starts and along which an edge leads to each
later variable, and states to read the other edges from. -/
structure Plannable (p : Pattern) (ordering : List Nat) (views : List View) (seed : Nat) :
    Prop where
  nonempty : p.edges ≠ []
  loopless : p.Loopless
  length_views : views.length = p.edges.length
  perm : ordering.Perm (List.range p.vars.length)
  seed_bound : p.BoundAt ordering seed 1
  linked : ∀ slot, 2 ≤ slot → slot < ordering.length → ∃ i, p.BoundAt ordering i slot
  indexable : ∀ (i : Nat) (view : View), i ≠ seed → views[i]? = some view →
    view.isIndexable = true

/-! ## The rules of a stage -/

section Stages

variable (hp : p.InRange) (hcheck : p.checkEdges = .ok ())
  (hperm : ordering.Perm (List.range p.vars.length))
include hp hcheck hperm

theorem mem_stage_iff {s : Nat} {r : Rule} :
    r ∈ stageRules (p.placedRules ordering views) seed s ↔
      ∃ i, p.RuleOf ordering views i (s + 1) r := by
  rw [mem_stageRules, List.mem_iff_getElem?]
  exact exists_congr fun i => getElem?_placedRules_iff hp hcheck hperm

/-- No stage is empty if an edge leads to each variable. -/
theorem stage_ne_nil_iff (hviews : views.length = p.edges.length) {s : Nat} :
    stageRules (p.placedRules ordering views) seed s ≠ [] ↔
      ∃ i, p.BoundAt ordering i (s + 1) := by
  have hrules : (∃ r, r ∈ stageRules (p.placedRules ordering views) seed s) ↔
      ∃ i r, p.RuleOf ordering views i (s + 1) r := by
    rw [exists_comm]
    exact exists_congr fun r => mem_stage_iff hp hcheck hperm
  rw [ne_eq, List.eq_nil_iff_forall_not_mem, ← not_exists, not_not, hrules]
  exact exists_congr fun i => exists_ruleOf_iff hviews

/-- Each edge is bound in the slot of its later endpoint. -/
theorem exists_boundAt {i : Nat} (hi : i < p.edges.length) :
    ∃ s, s < p.vars.length - 1 ∧ p.BoundAt ordering i (s + 1) := by
  have hmem := List.getElem_mem hi
  have hloop := (checkEdges_eq_ok_iff.mp hcheck).2 _ hmem
  have hrange := hp _ hmem
  exact ⟨_, placedRule_stage_lt hperm hrange.1 hloop hrange.2 .merged, p.edges[i], _, _,
    List.getElem?_eq_getElem hi, spans_placedRule hperm hrange.1 hrange.2 hloop .merged⟩

/-- The seed opens the first stage. -/
theorem stagesOf_eq_cons {r : Rule} (hseed : p.RuleOf ordering views seed 1 r) :
    ∃ others, p.stagesOf ordering views seed = (r :: others) ::
        ((List.range (ordering.length - 2)).map fun s =>
          stageRules (p.placedRules ordering views) seed (s + 1)) ∧
      ∀ r', r' ∈ others ↔ ∃ i, i ≠ seed ∧ p.RuleOf ordering views i 1 r' := by
  obtain ⟨others, hstage, hothers⟩ :=
    stageRules_seed ((getElem?_placedRules_iff hp hcheck hperm).mpr hseed)
  refine ⟨others, ?_, fun r' => ?_⟩
  · have htwo := two_le_of_checkEdges hp hcheck
    have hlength := length_of_ordering hperm
    have hrange : ordering.length - 1 = (ordering.length - 2) + 1 := by omega
    rw [stagesOf, hrange, List.range_succ_eq_map, List.map_cons, hstage, List.map_map]
    rfl
  · rw [hothers]
    exact exists_congr fun i => and_congr_right fun _ => getElem?_placedRules_iff hp hcheck hperm

/-- In stages that fit together, every edge but the seed is read from a state. -/
theorem indexable_of_valid_stagesOf (hviews : views.length = p.edges.length)
    (hseed : p.BoundAt ordering seed 1) (hvalid : Plan.Valid ⟨p.stagesOf ordering views seed⟩)
    {i : Nat} {view : View} (hi : i ≠ seed) (hview : views[i]? = some view) :
    view.isIndexable = true := by
  have hlength := length_of_ordering hperm
  obtain ⟨r, hr⟩ := (exists_ruleOf_iff hviews).mpr hseed
  obtain ⟨others, hstages, hothers⟩ := stagesOf_eq_cons hp hcheck hperm hr
  rw [hstages] at hvalid
  cases hvalid with
  | intro _ hchecks hlater =>
    have hlt : i < p.edges.length := hviews ▸ (List.getElem?_eq_some_iff.mp hview).1
    obtain ⟨s, hs, hbound⟩ := exists_boundAt hp hcheck hperm hlt
    obtain ⟨r', hr'⟩ := (exists_ruleOf_iff hviews).mpr hbound
    have hindexable : r'.view.isIndexable = true := by
      cases s with
      | zero => exact (hchecks r' ((hothers r').mpr ⟨i, hi, hr'⟩)).2
      | succ s =>
        have hs' : s < ordering.length - 2 := by omega
        have hstage := Plan.laterFit_iff_getElem?.mp hlater s _
          (by rw [List.getElem?_map, List.getElem?_range hs']; rfl)
        exact (hstage.2 r' ((mem_stage_iff hp hcheck hperm).mpr ⟨i, hr'⟩)).2
    rwa [Option.some.inj (hr'.view.symm.trans hview)] at hindexable

/-- Stages with rules fit together, if every edge but the seed is read from a state. -/
theorem valid_stagesOf (hviews : views.length = p.edges.length)
    (hseed : p.BoundAt ordering seed 1)
    (hne : ∀ stage ∈ p.stagesOf ordering views seed, stage ≠ [])
    (hindexable : ∀ (i : Nat) (view : View), i ≠ seed → views[i]? = some view →
      view.isIndexable = true) : Plan.Valid ⟨p.stagesOf ordering views seed⟩ := by
  obtain ⟨r, hr⟩ := (exists_ruleOf_iff hviews).mpr hseed
  obtain ⟨others, hstages, hothers⟩ := stagesOf_eq_cons hp hcheck hperm hr
  rw [hstages] at hne ⊢
  obtain ⟨e, -, hspans, -⟩ := hr.spans
  refine .intro (Nat.lt_one_iff.mp hspans.lt) (fun r' hr' => ?_)
    (Plan.laterFit_iff_getElem?.mpr fun s stage hs => ⟨?_, fun r' hr' => ?_⟩)
  · obtain ⟨i, hi, hrule⟩ := (hothers r').mp hr'
    obtain ⟨e, -, hspans, -⟩ := hrule.spans
    exact ⟨Nat.lt_one_iff.mp hspans.lt, hindexable i _ hi hrule.view⟩
  · exact hne stage (List.mem_cons_of_mem _ (List.mem_of_getElem? hs))
  · rw [List.getElem?_map] at hs
    obtain ⟨s', hs', rfl⟩ := Option.map_eq_some_iff.mp hs
    obtain ⟨hlt, rfl⟩ := List.getElem?_eq_some_iff.mp hs'
    rw [List.getElem_range] at hr'
    obtain ⟨i, hrule⟩ := (mem_stage_iff hp hcheck hperm).mp hr'
    obtain ⟨e, -, hspans, -⟩ := hrule.spans
    have hi : i ≠ seed := by
      rintro rfl
      have hbound := (exists_ruleOf_iff hviews).mp ⟨r', hrule⟩
      have hslot := hbound.unique hperm hseed
      omega
    have hlt := hspans.lt
    exact ⟨by omega, hindexable i _ hi hrule.view⟩

end Stages

/-! ## Acceptance -/

/-- **The planner accepts what it asks for**, and nothing else. -/
theorem exists_plan_iff (hp : p.InRange) :
    (∃ op, p.plan ordering views seed = .ok op) ↔ p.Plannable ordering views seed := by
  constructor
  · rintro ⟨op, h⟩
    obtain ⟨hcheck, hviews, hperm, ⟨⟨r, hseed⟩, -⟩, hne, hvalid, -⟩ := plan_eq_ok_iff.mp h
    obtain ⟨hnonempty, hloopless⟩ := checkEdges_eq_ok_iff.mp hcheck
    have hbound : p.BoundAt ordering seed 1 :=
      (exists_ruleOf_iff hviews).mp ⟨r, (getElem?_placedRules_iff hp hcheck hperm).mp hseed⟩
    refine ⟨hnonempty, hloopless, hviews, hperm, hbound, fun slot hslot hlt => ?_, ?_⟩
    · obtain ⟨s, rfl⟩ := Nat.exists_eq_add_of_le' (Nat.le_trans (by decide : 1 ≤ 2) hslot)
      have hs : s < ordering.length - 1 := by omega
      have hstage : (p.stagesOf ordering views seed)[s]? = some _ :=
        getElem?_stagesOf.mpr ⟨hs, rfl⟩
      exact (stage_ne_nil_iff hp hcheck hperm hviews).mp (hne _ (List.mem_of_getElem? hstage))
    · exact fun i view => indexable_of_valid_stagesOf hp hcheck hperm hviews hbound
        (Plan.validate_eq_ok_iff.mp hvalid)
  · intro h
    have hcheck := checkEdges_eq_ok_iff.mpr ⟨h.nonempty, h.loopless⟩
    have hne : ∀ stage ∈ p.stagesOf ordering views seed, stage ≠ [] := by
      intro stage hstage
      obtain ⟨s, hs⟩ := List.mem_iff_getElem?.mp hstage
      obtain ⟨hlt, rfl⟩ := getElem?_stagesOf.mp hs
      rw [stage_ne_nil_iff hp hcheck h.perm h.length_views]
      cases s with
      | zero => exact ⟨seed, h.seed_bound⟩
      | succ s => exact h.linked (s + 2) (by omega) (by omega)
    obtain ⟨r, hr⟩ := (exists_ruleOf_iff h.length_views).mpr h.seed_bound
    have hvalid := valid_stagesOf hp hcheck h.perm h.length_views h.seed_bound hne h.indexable
    exact ⟨_, plan_eq_ok_iff.mpr ⟨hcheck, h.length_views, h.perm,
      ⟨⟨r, (getElem?_placedRules_iff hp hcheck h.perm).mpr hr⟩, hp⟩, hne,
      Plan.validate_eq_ok_iff.mpr hvalid, rfl⟩⟩

/-- Linked variables are bound one after the other. -/
theorem exists_boundAt_of_linked {j slot v w : Nat} (hj : j < slot) (hv : ordering[slot]? = some v)
    (hw : ordering[j]? = some w) (hlink : p.Linked v w) : ∃ i, p.BoundAt ordering i slot := by
  obtain ⟨e, he, hends⟩ := hlink
  obtain ⟨i, hi⟩ := List.mem_iff_getElem?.mp he
  rcases hends with ⟨rfl, rfl⟩ | ⟨rfl, rfl⟩
  · exact ⟨i, e, .backward, j, hi, hj, hw, hv⟩
  · exact ⟨i, e, .forward, j, hi, hj, hw, hv⟩

/-- The ordering from an edge is planned, if the other edges are read from states. -/
theorem plannable_of_orderingFrom {edge : Nat}
    (hordering : p.orderingFrom edge = .ok ordering) (hviews : views.length = p.edges.length)
    (hindexable : ∀ (i : Nat) (view : View), i ≠ edge → views[i]? = some view →
      view.isIndexable = true) : p.Plannable ordering views edge := by
  obtain ⟨hcheck, e, he, -, hgrowth, hperm⟩ := orderingFrom_eq_ok hordering
  obtain ⟨hnonempty, hloopless⟩ := checkEdges_eq_ok_iff.mp hcheck
  refine ⟨hnonempty, hloopless, hviews, hperm, ?_, fun slot hslot hlt => ?_, hindexable⟩
  -- the seed edge joins the first two variables
  · obtain ⟨rest, rfl⟩ := hgrowth.isPrefix
    exact ⟨e, .forward, 0, he, Nat.zero_lt_one, rfl, rfl⟩
  · have hv := List.getElem?_eq_getElem hlt
    obtain ⟨j, w, hj, hw, hlink⟩ := hgrowth.linked_earlier hslot hv
    exact exists_boundAt_of_linked hj hv hw hlink

/-- **A validated pattern is planned from any of its edges**, if the other edges are read from
states. -/
theorem exists_plan_from (hp : p.InRange) (hvalid : p.validate = .ok ()) {edge : Nat}
    (hedge : edge < p.edges.length) (hviews : views.length = p.edges.length)
    (hindexable : ∀ (i : Nat) (view : View), i ≠ edge → views[i]? = some view →
      view.isIndexable = true) :
    ∃ ordering op, p.orderingFrom edge = .ok ordering ∧ p.plan ordering views edge = .ok op := by
  obtain ⟨ordering, hordering⟩ := exists_orderingFrom hp hvalid hedge
  obtain ⟨op, hop⟩ := (exists_plan_iff hp).mpr
    (plannable_of_orderingFrom hordering hviews hindexable)
  exact ⟨ordering, op, hordering, hop⟩

end Pattern
end DeltaMatch
