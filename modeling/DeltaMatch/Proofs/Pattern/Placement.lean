import DeltaMatch.Proofs.Graph.Relation
import DeltaMatch.Proofs.Pattern.Ordering

/-!
# Placing the edges of a pattern

The planner turns each pattern edge into one rule, which it places in the stage that
binds the later endpoint of the edge.
-/

namespace DeltaMatch

/-- The endpoint at which a rule of a direction starts. -/
def PatternEdge.anchor (e : PatternEdge) : Direction → Nat
  | .forward => e.source
  | .backward => e.target

/-- Read in the direction, the edge leads from the variable in a slot to that in a later one. -/
structure PatternEdge.Spans (e : PatternEdge) (ordering : List Nat) (d : Direction)
    (earlier later : Nat) : Prop where
  lt : earlier < later
  start : ordering[earlier]? = some (e.anchor d)
  stop : ordering[later]? = some (e.anchor d.reverse)

namespace Pattern

variable {p : Pattern} {ordering : List Nat} {views : List View} {seed : Nat}

/-- No edge joins a variable to itself. -/
def Loopless (p : Pattern) : Prop := ∀ e ∈ p.edges, e.source ≠ e.target

theorem checkEdges_eq_ok_iff :
    p.checkEdges = .ok () ↔ p.edges ≠ [] ∧ ∀ e ∈ p.edges, e.source ≠ e.target := by
  have hnone : p.edges.find? (fun e => e.source == e.target) = none ↔
      ∀ e ∈ p.edges, e.source ≠ e.target := by
    simp
  rw [← hnone, ne_eq, ← List.isEmpty_iff, checkEdges]
  cases p.edges.isEmpty with
  | true => simp
  | false =>
    cases p.edges.find? (fun e => e.source == e.target) with
    | none => simp
    | some loop => cases hname : p.vars[loop.source]? <;> simp [hname]

/-- A pattern with a plan has at least two variables. -/
theorem two_le_of_checkEdges (hp : p.InRange) (hcheck : p.checkEdges = .ok ()) :
    2 ≤ p.vars.length := by
  obtain ⟨hne, hloop⟩ := checkEdges_eq_ok_iff.mp hcheck
  obtain ⟨e, he⟩ := List.exists_mem_of_ne_nil p.edges hne
  have hrange := hp e he
  have hne := hloop e he
  omega

/-- The stages of a plan for an ordering. -/
def stagesOf (p : Pattern) (ordering : List Nat) (views : List View) (seed : Nat) : List Stage :=
  (List.range (ordering.length - 1)).map (stageRules (p.placedRules ordering views) seed)

/-- Edges are placed if the seed comes to stand in the first stage and none of them strays. -/
theorem placementFault?_eq_none_iff {placed : List (Nat × Rule)} :
    p.placementFault? placed seed = none ↔ (∃ r, placed[seed]? = some (0, r)) ∧ p.InRange := by
  rw [placementFault?, ← any_isStray_eq_false_iff]
  cases placed[seed]? with
  | none => simp
  | some x =>
    obtain ⟨stage, r⟩ := x
    -- the edges up to the seed are some of all edges
    have hsome : p.edges.any p.isStray = false → (p.edges.take (seed + 1)).any p.isStray = false :=
      fun h => List.any_eq_false.mpr fun e he => List.any_eq_false.mp h e (List.mem_of_mem_take he)
    cases hall : p.edges.any p.isStray with
    | true =>
      simp only [if_true]
      split
      · simp
      · split <;> simp
    | false => simp [hsome hall]

/-- **What the planner accepts and what it makes of it.** -/
theorem plan_eq_ok_iff {op : OrderedPlan} : p.plan ordering views seed = .ok op ↔
    p.checkEdges = .ok () ∧ views.length = p.edges.length ∧
      ordering.Perm (List.range p.vars.length) ∧
      ((∃ r, (p.placedRules ordering views)[seed]? = some (0, r)) ∧ p.InRange) ∧
      (∀ stage ∈ p.stagesOf ordering views seed, stage ≠ []) ∧
      Plan.validate ⟨p.stagesOf ordering views seed⟩ = .ok () ∧
      op = ⟨⟨p.stagesOf ordering views seed⟩, ordering⟩ := by
  rw [← isOrdering_iff_perm]
  have hempty : (p.stagesOf ordering views seed).findIdx? (·.isEmpty) = none ↔
      ∀ stage ∈ p.stagesOf ordering views seed, stage ≠ [] := by
    simp [List.findIdx?_eq_none_iff]
  rw [← hempty, ← placementFault?_eq_none_iff, plan, stagesOf]
  constructor
  · intro h
    simp only [bind, Except.bind] at h
    split at h
    · cases h
    rename_i hcheck
    split at h
    · cases h
    rename_i hviews
    split at h
    · cases h
    rename_i hordering
    split at h
    · cases h
    rename_i hplaced
    split at h
    · cases h
    rename_i hempty
    split at h
    · cases h
    rename_i hvalid
    cases h
    exact ⟨hcheck, not_not.mp hviews, by simpa using hordering, hplaced, hempty, hvalid, rfl⟩
  · intro h
    obtain ⟨hcheck, hviews, hordering, hplaced, hstages, hvalid, rfl⟩ := h
    simp [hcheck, hviews, hordering, hplaced, hstages, hvalid]
    rfl

/-! ## Rules and edges -/

theorem getElem?_placedRules {i : Nat} {x : Nat × Rule} :
    (p.placedRules ordering views)[i]? = some x ↔
      ∃ e view, p.edges[i]? = some e ∧ views[i]? = some view ∧ x = placedRule ordering e view := by
  rw [placedRules, List.getElem?_zipWith]
  cases p.edges[i]? with
  | none => simp
  | some e =>
    cases views[i]? with
    | none => simp
    | some view => simp [eq_comm]

theorem mem_placedRules {x : Nat × Rule} : x ∈ p.placedRules ordering views ↔
    ∃ (i : Nat) (e : PatternEdge) (view : View), p.edges[i]? = some e ∧ views[i]? = some view ∧
      x = placedRule ordering e view := by
  rw [List.mem_iff_getElem?]
  exact exists_congr fun i => getElem?_placedRules

/-! ## Arranging a stage -/

section Arranged

variable {placed : List (Nat × Rule)} {stage : Nat} {r : Rule}

/-- The rules placed in a stage and the numbers of their edges, the seed in front. -/
def arranged (placed : List (Nat × Rule)) (seed stage : Nat) : List ((Nat × Rule) × Nat) :=
  let here := placed.zipIdx.filter fun x => x.1.1 == stage
  (here.filter fun x => x.2 == seed) ++ here.filter fun x => x.2 != seed

theorem stageRules_eq_arranged :
    stageRules placed seed stage = (arranged placed seed stage).map (·.1.2) := by
  rw [arranged, List.map_append]
  rfl

theorem arranged_perm : (arranged placed seed stage).Perm
    (placed.zipIdx.filter fun x => x.1.1 == stage) :=
  List.filter_append_perm _ _

theorem mem_arranged {x : (Nat × Rule) × Nat} :
    x ∈ arranged placed seed stage ↔ placed[x.2]? = some x.1 ∧ x.1.1 = stage := by
  rw [arranged_perm.mem_iff, List.mem_filter, List.mem_zipIdx_iff_getElem?, beq_iff_eq]

/-- Each edge is arranged once. -/
theorem nodup_arranged : ((arranged placed seed stage).map (·.2)).Nodup := by
  rw [(arranged_perm.map _).nodup_iff]
  refine List.Nodup.sublist (List.filter_sublist.map _) ?_
  rw [List.zipIdx_map_snd]
  exact List.nodup_range'

/-- Apart from the seed, the edges are arranged in their own order. -/
theorem ascending_arranged :
    (((arranged placed seed stage).map (·.2)).filter (· != seed)).Pairwise (· < ·) := by
  have hfront : ∀ l : List ((Nat × Rule) × Nat),
      (l.filter fun x => x.2 == seed).filter ((· != seed) ∘ (·.2)) = [] := by
    intro l
    rw [List.filter_eq_nil_iff]
    simp
  rw [List.filter_map, arranged, List.filter_append, hfront, List.nil_append]
  refine List.Pairwise.sublist (((List.filter_sublist.trans List.filter_sublist).trans
    List.filter_sublist).map _) ?_
  rw [List.zipIdx_map_snd]
  exact List.pairwise_lt_range'

/-- A stage holds the rules placed in it, whichever of them is the seed. -/
theorem mem_stageRules : r ∈ stageRules placed seed stage ↔ (stage, r) ∈ placed := by
  rw [stageRules_eq_arranged, List.mem_map, List.mem_iff_getElem?]
  constructor
  · rintro ⟨⟨⟨s, r⟩, i⟩, hx, rfl⟩
    obtain ⟨hplaced, rfl⟩ := mem_arranged.mp hx
    exact ⟨i, hplaced⟩
  · rintro ⟨i, hplaced⟩
    exact ⟨((stage, r), i), mem_arranged.mpr ⟨hplaced, rfl⟩, rfl⟩

theorem filter_zipIdx_eq {α : Type} {l : List α} (start : Nat) {i : Nat} {a : α}
    (h : l[i]? = some a) :
    (l.zipIdx start).filter (fun x => x.2 == start + i) = [(a, start + i)] := by
  induction l generalizing start i with
  | nil => cases h
  | cons b rest ih =>
    rw [List.zipIdx_cons, List.filter_cons]
    cases i with
    | zero =>
      cases h
      have hrest : (rest.zipIdx (start + 1)).filter (fun x => x.2 == start) = [] := by
        rw [List.filter_eq_nil_iff]
        rintro ⟨b, k⟩ hb
        have hle := List.le_snd_of_mem_zipIdx hb
        simp only [beq_iff_eq]
        omega
      simp only [Nat.add_zero, beq_self_eq_true, if_true, hrest]
    | succ i =>
      have hstart : start + (i + 1) = start + 1 + i := by omega
      have hne : (start == start + (i + 1)) = false := by
        rw [beq_eq_false_iff_ne]
        omega
      rw [hne, hstart]
      exact ih (start + 1) h

/-- The stage of the seed has the seed in front and its other edges behind it. -/
theorem arranged_seed (h : placed[seed]? = some (stage, r)) : ∃ others,
    arranged placed seed stage = ((stage, r), seed) :: others ∧
      ∀ x, x ∈ others ↔ x ∈ arranged placed seed stage ∧ x.2 ≠ seed := by
  have hfront : (placed.zipIdx.filter fun x => x.1.1 == stage).filter (fun x => x.2 == seed) =
      [((stage, r), seed)] := by
    have hseed := filter_zipIdx_eq 0 h
    rw [Nat.zero_add] at hseed
    rw [List.filter_filter]
    simp only [Bool.and_comm]
    rw [← List.filter_filter, hseed]
    simp
  refine ⟨(placed.zipIdx.filter fun x => x.1.1 == stage).filter fun x => x.2 != seed, ?_,
    fun x => ?_⟩
  · rw [arranged, hfront]
    rfl
  · rw [List.mem_filter, arranged_perm.mem_iff, bne_iff_ne]

/-- The stage of the seed has the seed in front and the rules of the other edges behind it. -/
theorem stageRules_seed (h : placed[seed]? = some (stage, r)) : ∃ others,
    stageRules placed seed stage = r :: others ∧
      ∀ r', r' ∈ others ↔ ∃ i, i ≠ seed ∧ placed[i]? = some (stage, r') := by
  obtain ⟨others, heq, hothers⟩ := arranged_seed h
  refine ⟨others.map (·.1.2), ?_, fun r' => ?_⟩
  · rw [stageRules_eq_arranged, heq]
    rfl
  · rw [List.mem_map]
    constructor
    · rintro ⟨⟨⟨s, r'⟩, i⟩, hx, rfl⟩
      obtain ⟨hmem, hi⟩ := (hothers _).mp hx
      obtain ⟨hplaced, rfl⟩ := mem_arranged.mp hmem
      exact ⟨i, hi, hplaced⟩
    · rintro ⟨i, hi, hplaced⟩
      exact ⟨((stage, r'), i), (hothers _).mpr ⟨mem_arranged.mpr ⟨hplaced, rfl⟩, hi⟩, rfl⟩

end Arranged

/-! ## Rules, edges and stages -/

theorem getElem?_stagesOf {s : Nat} {stage : Stage} :
    (p.stagesOf ordering views seed)[s]? = some stage ↔ s < ordering.length - 1 ∧
      stage = stageRules (p.placedRules ordering views) seed s := by
  rw [stagesOf, List.getElem?_map]
  by_cases hs : s < ordering.length - 1
  · rw [List.getElem?_range hs]
    simp [hs, eq_comm]
  · rw [List.getElem?_eq_none (by simpa using hs)]
    simp [hs]

section PlacedRule

variable {n : Nat} {e : PatternEdge} (hperm : ordering.Perm (List.range n))
  (hsource : e.source < n) (hloop : e.source ≠ e.target)
include hperm hsource hloop

/-- An edge is placed in one of the stages. -/
theorem placedRule_stage_lt (htarget : e.target < n) (view : View) :
    (placedRule ordering e view).1 < n - 1 := by
  have hs := idxOf_lt_of_ordering hperm hsource
  have ht := idxOf_lt_of_ordering hperm htarget
  have hne := idxOf_ne_of_ordering hperm hsource hloop
  rw [placedRule]
  split
  · show ordering.idxOf e.target - 1 < n - 1
    omega
  · show ordering.idxOf e.source - 1 < n - 1
    omega

/-- **The rule of an edge asks for what the edge asks for**, whichever endpoint is bound
first. -/
theorem placedRule_holds_iff {g : Graph} {view : View} {t : Tuple} :
    (∃ u v, t[(placedRule ordering e view).2.slot]? = some u ∧
        t[(placedRule ordering e view).1 + 1]? = some v ∧
        (placedRule ordering e view).2.Admits g u v) ↔
      ∃ u v, t[ordering.idxOf e.source]? = some u ∧ t[ordering.idxOf e.target]? = some v ∧
        g.Relates view e.filter u v := by
  have hne := idxOf_ne_of_ordering hperm hsource hloop
  rw [placedRule]
  split
  · rename_i hlt
    have hstage : ordering.idxOf e.target - 1 + 1 = ordering.idxOf e.target := by omega
    rw [hstage]
    rfl
  -- the source is bound later, and the rule runs against the edge
  · have hstage : ordering.idxOf e.source - 1 + 1 = ordering.idxOf e.source := by omega
    rw [hstage]
    constructor
    · intro h
      obtain ⟨v, u, hv, hu, hrelates⟩ := h
      exact ⟨u, v, hu, hv, hrelates⟩
    · intro h
      obtain ⟨u, v, hu, hv, hrelates⟩ := h
      exact ⟨v, u, hv, hu, hrelates⟩

end PlacedRule

/-! ## Edges between slots -/

/-- The later endpoint of the edge of a number is in the slot. -/
def BoundAt (p : Pattern) (ordering : List Nat) (i slot : Nat) : Prop :=
  ∃ e d earlier, p.edges[i]? = some e ∧ e.Spans ordering d earlier slot

/-- The rule of the edge of a number, if it binds a slot: it leads there from the slot of the
earlier endpoint, and asks for what the edge asks for. -/
structure RuleOf (p : Pattern) (ordering : List Nat) (views : List View) (i slot : Nat)
    (r : Rule) : Prop where
  spans : ∃ e, p.edges[i]? = some e ∧ e.Spans ordering r.direction r.slot slot ∧
    r.filter = e.filter
  view : views[i]? = some r.view

theorem exists_ruleOf_iff (hviews : views.length = p.edges.length) {i slot : Nat} :
    (∃ r, p.RuleOf ordering views i slot r) ↔ p.BoundAt ordering i slot := by
  constructor
  · rintro ⟨r, ⟨e, he, hspans, -⟩, -⟩
    exact ⟨e, r.direction, r.slot, he, hspans⟩
  · rintro ⟨e, d, earlier, he, hspans⟩
    have hi : i < views.length := hviews ▸ (List.getElem?_eq_some_iff.mp he).1
    exact ⟨⟨earlier, d, views[i], e.filter⟩, ⟨e, he, hspans, rfl⟩, List.getElem?_eq_getElem hi⟩

section Spans

variable {n : Nat} (hperm : ordering.Perm (List.range n))
include hperm

theorem spans_placedRule {e : PatternEdge} (hsource : e.source < n) (htarget : e.target < n)
    (hloop : e.source ≠ e.target) (view : View) :
    e.Spans ordering (placedRule ordering e view).2.direction (placedRule ordering e view).2.slot
      ((placedRule ordering e view).1 + 1) := by
  have hne := idxOf_ne_of_ordering hperm hsource hloop
  have hs := getElem?_idxOf_of_ordering hperm hsource
  have ht := getElem?_idxOf_of_ordering hperm htarget
  rw [placedRule]
  split
  · rename_i hlt
    have hstage : ordering.idxOf e.target - 1 + 1 = ordering.idxOf e.target := by omega
    exact ⟨by rw [hstage]; exact hlt, hs, by rw [hstage]; exact ht⟩
  · have hstage : ordering.idxOf e.source - 1 + 1 = ordering.idxOf e.source := by omega
    exact ⟨by rw [hstage]; show ordering.idxOf e.target < _; omega, ht, by rw [hstage]; exact hs⟩

theorem placedRule_of_spans {e : PatternEdge} {d : Direction} {earlier s : Nat}
    (h : e.Spans ordering d earlier (s + 1)) (view : View) :
    placedRule ordering e view = (s, ⟨earlier, d, view, e.filter⟩) := by
  have hlt := h.lt
  have hstart := idxOf_eq_of_ordering hperm h.start
  have hstop := idxOf_eq_of_ordering hperm h.stop
  cases d with
  | forward =>
    change ordering.idxOf e.source = earlier at hstart
    change ordering.idxOf e.target = s + 1 at hstop
    rw [placedRule, hstart, hstop, if_pos hlt]
    rfl
  | backward =>
    change ordering.idxOf e.target = earlier at hstart
    change ordering.idxOf e.source = s + 1 at hstop
    rw [placedRule, hstart, hstop, if_neg (by omega)]
    rfl

/-- An edge is bound in one slot. -/
theorem BoundAt.unique {i slot slot' : Nat}
    (h : p.BoundAt ordering i slot) (h' : p.BoundAt ordering i slot') : slot = slot' := by
  obtain ⟨e, d, earlier, he, hspans⟩ := h
  obtain ⟨e', d', earlier', he', hspans'⟩ := h'
  cases he.symm.trans he'
  obtain ⟨s, rfl⟩ := Nat.exists_eq_succ_of_ne_zero (Nat.ne_zero_of_lt hspans.lt)
  obtain ⟨s', rfl⟩ := Nat.exists_eq_succ_of_ne_zero (Nat.ne_zero_of_lt hspans'.lt)
  -- whichever way round it is read, its rule is placed in one stage
  have hplaced := placedRule_of_spans hperm hspans .merged
  rw [placedRule_of_spans hperm hspans' .merged] at hplaced
  cases hplaced
  rfl

end Spans

/-- **The planner places the rules of the edges**, each in the stage that binds its later
endpoint. -/
theorem getElem?_placedRules_iff (hp : p.InRange) (hcheck : p.checkEdges = .ok ())
    (hperm : ordering.Perm (List.range p.vars.length)) {i s : Nat} {r : Rule} :
    (p.placedRules ordering views)[i]? = some (s, r) ↔ p.RuleOf ordering views i (s + 1) r := by
  rw [getElem?_placedRules]
  constructor
  · rintro ⟨e, view, he, hview, heq⟩
    have hmem := List.mem_of_getElem? he
    have hrange := hp e hmem
    have hspans := spans_placedRule hperm hrange.1 hrange.2
      ((checkEdges_eq_ok_iff.mp hcheck).2 e hmem) view
    have hview' : (placedRule ordering e view).2.view = view := by
      rw [placedRule]
      split <;> rfl
    have hfilter : (placedRule ordering e view).2.filter = e.filter := by
      rw [placedRule]
      split <;> rfl
    rw [← heq] at hspans hview' hfilter
    exact ⟨⟨e, he, hspans, hfilter⟩, by rw [hview, hview']⟩
  · rintro ⟨⟨e, he, hspans, hfilter⟩, hview⟩
    refine ⟨e, r.view, he, hview, ?_⟩
    rw [placedRule_of_spans hperm hspans, ← hfilter]

end Pattern
end DeltaMatch
