import DeltaMatch.DeltaJoin
import DeltaMatch.Proofs.Pattern.Acceptance

/-!
# The layout of a plan

A plan has one stage for each variable past the first. In it stands one rule for each edge
whose later endpoint is that variable, in the order of the edges, except that the seed opens
the first stage. So each edge is placed once, and a validated pattern has a plan for each of
its edges and either log.
-/

namespace DeltaMatch
namespace Pattern

variable {p : Pattern} {ordering : List Nat} {views : List View} {seed : Nat} {op : OrderedPlan}

/-! ## Stages -/

/-- The numbers of the edges whose rules make up a stage: those whose later endpoint the stage
binds, in their own order, except that the seed opens the first stage. -/
structure LaidOut (p : Pattern) (ordering : List Nat) (views : List View) (seed s : Nat)
    (numbers : List Nat) (stage : Stage) : Prop where
  rules : List.Forall₂ (fun i r => p.RuleOf ordering views i (s + 1) r) numbers stage
  mem_iff : ∀ i, i ∈ numbers ↔ p.BoundAt ordering i (s + 1)
  nodup : numbers.Nodup
  seed_first : s = 0 → numbers.head? = some seed
  ascending : (numbers.filter (· != seed)).Pairwise (· < ·)

theorem exists_laidOut (hp : p.InRange) (h : p.Plannable ordering views seed) (s : Nat) :
    ∃ numbers, p.LaidOut ordering views seed s numbers
      (stageRules (p.placedRules ordering views) seed s) := by
  have hcheck := checkEdges_eq_ok_iff.mpr ⟨h.nonempty, h.loopless⟩
  have hrule : ∀ {i s : Nat} {r : Rule}, (p.placedRules ordering views)[i]? = some (s, r) ↔
      p.RuleOf ordering views i (s + 1) r := getElem?_placedRules_iff hp hcheck h.perm
  refine ⟨(arranged (p.placedRules ordering views) seed s).map (·.2), ?_, fun i => ?_,
    nodup_arranged, ?_, ascending_arranged⟩
  · rw [stageRules_eq_arranged, List.forall₂_map_left_iff, List.forall₂_map_right_iff,
      List.forall₂_same]
    rintro ⟨⟨s', r⟩, i⟩ hx
    obtain ⟨hplaced, rfl⟩ := mem_arranged.mp hx
    exact hrule.mp hplaced
  · rw [← exists_ruleOf_iff h.length_views, List.mem_map]
    constructor
    · rintro ⟨⟨⟨s', r⟩, i⟩, hx, rfl⟩
      obtain ⟨hplaced, rfl⟩ := mem_arranged.mp hx
      exact ⟨r, hrule.mp hplaced⟩
    · rintro ⟨r, hr⟩
      exact ⟨((s, r), i), mem_arranged.mpr ⟨hrule.mpr hr, rfl⟩, rfl⟩
  · rintro rfl
    obtain ⟨r, hr⟩ := (exists_ruleOf_iff h.length_views).mpr h.seed_bound
    obtain ⟨others, heq, -⟩ := arranged_seed (hrule.mpr hr)
    rw [heq]
    rfl

/-! ## Plans -/

/-- A plan lays out the edges in the stages of an ordering, each in one of them. -/
structure PlanOf (p : Pattern) (ordering : List Nat) (views : List View) (seed : Nat)
    (op : OrderedPlan) : Prop where
  ordering_eq : op.ordering = ordering
  valid : op.plan.validate = .ok ()
  width_eq : op.plan.width = p.vars.length
  laidOut : ∀ s stage, op.plan.stages[s]? = some stage →
    ∃ numbers, p.LaidOut ordering views seed s numbers stage
  once : ∀ i < p.edges.length, ∃! s, s < op.plan.stages.length ∧ p.BoundAt ordering i (s + 1)

theorem planOf_of_plan (hp : p.InRange) (h : p.plan ordering views seed = .ok op) :
    p.PlanOf ordering views seed op := by
  have hplannable := (exists_plan_iff hp).mp ⟨op, h⟩
  obtain ⟨hcheck, hviews, hperm, -, -, hvalid, rfl⟩ := plan_eq_ok_iff.mp h
  have htwo := two_le_of_checkEdges hp hcheck
  have hlength : (p.stagesOf ordering views seed).length = p.vars.length - 1 := by
    rw [stagesOf, List.length_map, List.length_range, length_of_ordering hperm]
  refine ⟨rfl, hvalid, ?_, fun s stage hs => ?_, fun i hi => ?_⟩
  · rw [Plan.width, hlength]
    omega
  · obtain ⟨-, rfl⟩ := getElem?_stagesOf.mp hs
    exact exists_laidOut hp hplannable s
  · obtain ⟨s, hs, hbound⟩ := exists_boundAt hp hcheck hperm hi
    refine ⟨s, ⟨by rwa [hlength], hbound⟩, fun s' hs' => ?_⟩
    exact Nat.succ.inj (hs'.2.unique hperm hbound)

/-! ## The plans of a log -/

/-- The plan of the term of an edge: the edge opens the order and is read from the log. -/
def IsDeltaPlan (p : Pattern) (diff : View) (op : OrderedPlan) (edge : Nat) : Prop :=
  ∃ ordering, p.orderingFrom edge = .ok ordering ∧
    p.plan ordering (deltaViews diff p.edges.length edge) edge = .ok op

theorem getElem?_deltaViews {diff : View} {edges edge i : Nat} (hi : i < edges) :
    (deltaViews diff edges edge)[i]? =
      some (if i < edge then .merged else if i = edge then diff else .permanent) := by
  rw [deltaViews, List.getElem?_map, List.getElem?_range hi]
  rfl

theorem exists_deltaPlan (hp : p.InRange) (hvalid : p.validate = .ok ()) (diff : View)
    {edge : Nat} (hedge : edge < p.edges.length) : ∃ op, p.IsDeltaPlan diff op edge := by
  have hviews : (deltaViews diff p.edges.length edge).length = p.edges.length := by
    simp [deltaViews]
  obtain ⟨ordering, op, hordering, hop⟩ :=
    exists_plan_from hp hvalid hedge hviews fun i view hne hview => by
      have hi : i < p.edges.length := hviews ▸ (List.getElem?_eq_some_iff.mp hview).1
      rw [getElem?_deltaViews hi, if_neg hne] at hview
      cases hview
      split <;> rfl
  exact ⟨op, ordering, hordering, hop⟩

/-- **Every term of a log is planned.** -/
theorem exists_deltaPlans (hp : p.InRange) (hvalid : p.validate = .ok ()) {diff : View}
    (hdiff : diff.isIndexable = false) : ∃ plans, p.deltaPlans diff = .ok plans ∧
      List.Forall₂ (p.IsDeltaPlan diff) plans (List.range p.edges.length) := by
  rw [deltaPlans, hdiff]
  refine exists_mapM_ok fun edge hedge => ?_
  obtain ⟨op, ordering, hordering, hop⟩ := exists_deltaPlan hp hvalid diff (List.mem_range.mp hedge)
  refine ⟨op, ?_, ordering, hordering, hop⟩
  rw [hordering]
  simp only
  rw [hop]
  rfl

/-! ## Stray edges -/

/-- The endpoints of the seed come first in its order, so the seed itself is in its place. -/
theorem placedRule_seed {e : PatternEdge} (hloop : e.source ≠ e.target)
    (hbegins : [e.source, e.target] <+: ordering) (view : View) :
    placedRule ordering e view = (0, ⟨0, .forward, view, e.filter⟩) := by
  obtain ⟨rest, rfl⟩ := hbegins
  have hsource : ([e.source, e.target] ++ rest).idxOf e.source = 0 := List.idxOf_cons_self
  have htarget : ([e.source, e.target] ++ rest).idxOf e.target = 1 := by
    simp [hloop]
  rw [placedRule, hsource, htarget]
  rfl

/-- An edge that names an undeclared variable has no place, whatever edge is the seed. -/
theorem plan_of_stray {edge : Nat} (hordering : p.orderingFrom edge = .ok ordering)
    (hviews : views.length = p.edges.length) (hstray : ¬ p.InRange) :
    p.plan ordering views edge = .error .strayVariable := by
  obtain ⟨hcheck, e, he, -, hgrowth, hperm⟩ := orderingFrom_eq_ok hordering
  have hloop := (checkEdges_eq_ok_iff.mp hcheck).2 e (List.mem_of_getElem? he)
  have hview : views[edge]? = some _ :=
    List.getElem?_eq_getElem (hviews ▸ (List.getElem?_eq_some_iff.mp he).1)
  have hseed : (p.placedRules ordering views)[edge]? = some _ :=
    getElem?_placedRules.mpr ⟨e, _, he, hview, rfl⟩
  rw [placedRule_seed hloop hgrowth.isPrefix] at hseed
  have hany : p.edges.any p.isStray = true := by
    rwa [← Bool.not_eq_false, any_isStray_eq_false_iff]
  have hfault : p.placementFault? (p.placedRules ordering views) edge = some .strayVariable := by
    simp only [placementFault?, hseed, hany, ne_eq, not_true_eq_false, if_true, if_false, ite_self]
  have hpermutes : isOrdering p.vars.length ordering = true := isOrdering_iff_perm.mpr hperm
  rw [plan, hcheck]
  simp [hviews, hpermutes, hfault]
  rfl

/-- **A stray edge ends the planning of a log**, although the pattern passes the validation. -/
theorem deltaPlans_of_stray (hvalid : p.validate = .ok ()) (hstray : ¬ p.InRange) {diff : View}
    (hdiff : diff.isIndexable = false) : p.deltaPlans diff = .error (.plan .strayVariable) := by
  obtain ⟨ordering, hordering, -⟩ := bind_eq_ok_iff.mp hvalid
  have hviews : (deltaViews diff p.edges.length 0).length = p.edges.length := by simp [deltaViews]
  have hplan := plan_of_stray hordering hviews hstray
  -- the first edge is not even placed, so there are no plans to run before the panic
  obtain ⟨count, hcount⟩ :=
    Nat.exists_eq_succ_of_ne_zero (Nat.ne_of_gt (length_pos_of_validate hvalid))
  rw [hcount] at hplan
  rw [deltaPlans, hdiff, if_neg Bool.false_ne_true, hcount, List.range_succ_eq_map]
  refine List.mapM_cons.trans (bind_eq_error_iff.mpr (.inl ?_))
  simp only [hordering, hplan]
  rfl

/-- **The planner accepts exactly what can be executed, and places every edge once.** What it
accepts becomes a plan that passes its check, is as wide as the pattern has variables, and has
in each stage the rules of the edges that the stage binds. A pattern that passes the validation
has such a plan for each edge and either log. -/
theorem plan_accepts_and_places (hp : p.InRange) :
    (∀ ordering views seed, (∃ op, p.plan ordering views seed = .ok op) ↔
      p.Plannable ordering views seed) ∧
    (∀ ordering views seed op, p.plan ordering views seed = .ok op →
      p.PlanOf ordering views seed op) ∧
    (p.validate = .ok () → ∀ diff : View, diff.isIndexable = false →
      ∃ plans, p.deltaPlans diff = .ok plans ∧ List.Forall₂ (fun op edge =>
        p.IsDeltaPlan diff op edge ∧ op.plan.validate = .ok ()) plans
          (List.range p.edges.length)) := by
  refine ⟨fun ordering views seed => exists_plan_iff hp,
    fun ordering views seed op h => planOf_of_plan hp h, fun hvalid diff hdiff => ?_⟩
  obtain ⟨plans, hplans, hall⟩ := exists_deltaPlans hp hvalid hdiff
  refine ⟨plans, hplans, hall.imp fun op edge h => ⟨h, ?_⟩⟩
  obtain ⟨ordering, -, hop⟩ := h
  exact (planOf_of_plan hp hop).valid

/-- Two edges between the first variables, and one from each side to the third. -/
def doubled : Pattern :=
  ⟨["a", "b", "c"], [⟨0, 1, .any⟩, ⟨1, 0, ⟨4⟩⟩, ⟨2, 1, ⟨7⟩⟩, ⟨0, 2, .any⟩]⟩

/-- Planned around the second edge, its rule comes before that of the first. -/
theorem plan_accepts_and_places_doubled :
    doubled.InRange ∧ doubled.validate = .ok () ∧
      doubled.Plannable [1, 0, 2] [.merged, .diffPlus, .permanent, .merged] 1 ∧
      doubled.PlanOf [1, 0, 2] [.merged, .diffPlus, .permanent, .merged] 1
        ⟨⟨[[⟨0, .forward, .diffPlus, ⟨4⟩⟩, ⟨0, .backward, .merged, .any⟩],
          [⟨0, .backward, .permanent, ⟨7⟩⟩, ⟨1, .forward, .merged, .any⟩]]⟩, [1, 0, 2]⟩ ∧
      ∃ plans, doubled.deltaPlans .diffMinus = .ok plans ∧ List.Forall₂ (fun op edge =>
        doubled.IsDeltaPlan .diffMinus op edge ∧ op.plan.validate = .ok ()) plans
          (List.range doubled.edges.length) := by
  have hrange : doubled.InRange := by simp [doubled, InRange]
  obtain ⟨haccepts, hplaces, hdelta⟩ := plan_accepts_and_places hrange
  exact ⟨hrange, rfl, (haccepts _ _ _).mp ⟨_, rfl⟩, hplaces _ _ _ _ rfl,
    hdelta rfl .diffMinus rfl⟩

end Pattern
end DeltaMatch
