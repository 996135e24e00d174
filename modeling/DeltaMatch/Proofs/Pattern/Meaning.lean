import DeltaMatch.Proofs.Join.Delivery
import DeltaMatch.Proofs.Pattern.Placement

/-!
# The meaning of a plan for a pattern

Whatever the ordering and the seed, a plan for a pattern delivers the assignments in
which each pattern edge holds in the view it is read from.
-/

namespace DeltaMatch

/-- The assignment gives the endpoints of the edge vertices that the view relates. -/
def PatternEdge.Holds (e : PatternEdge) (g : Graph) (view : View) (a : Tuple) : Prop :=
  ∃ u v, a[e.source]? = some u ∧ a[e.target]? = some v ∧ g.Relates view e.filter u v

namespace Pattern

/-- One vertex for each variable, such that each edge holds in the view listed for it. -/
def Assigns (p : Pattern) (g : Graph) (views : List View) (a : Tuple) : Prop :=
  a.length = p.vars.length ∧
    ∀ (i : Nat) (e : PatternEdge) (view : View), p.edges[i]? = some e → views[i]? = some view →
      e.Holds g view a

/-- One vertex for each variable, such that each edge holds in the view. -/
def Holds (p : Pattern) (g : Graph) (view : View) (a : Tuple) : Prop :=
  a.length = p.vars.length ∧ ∀ e ∈ p.edges, e.Holds g view a

end Pattern

/-- Executions deliver each of the wanted assignments once and nothing else, if their
tuples are put in the order of the variables. Only if no batch of the size can be reserved do
they end before anything is delivered. -/
structure OrderedPlan.Yields (op : OrderedPlan) (g : Graph) (n : Nat) (wanted : Tuple → Prop) :
    Prop where
  delivers : n ≤ batchLimit → ∃ batches, op.plan.Delivers g n batches ∧
    (batches.flatten.map op.toDeclarationOrder).Nodup ∧
      ∀ a, a ∈ batches.flatten.map op.toDeclarationOrder ↔ wanted a
  overflows : batchLimit < n → op.plan.Overflows g n

theorem OrderedPlan.Yields.congr {op : OrderedPlan} {g : Graph} {n : Nat}
    {wanted wanted' : Tuple → Prop} (h : op.Yields g n wanted) (hiff : ∀ a, wanted a ↔ wanted' a) :
    op.Yields g n wanted' := by
  rwa [← funext fun a => propext (hiff a)]

namespace Pattern

variable {p : Pattern} {g : Graph} {ordering : List Nat} {views : List View} {seed : Nat}
  {op : OrderedPlan}

theorem assigns_const {view : View} {a : Tuple} :
    p.Assigns g (p.edges.map fun _ => view) a ↔ p.Holds g view a := by
  refine and_congr_right fun _ => ?_
  constructor
  · intro h e he
    obtain ⟨i, hi⟩ := List.mem_iff_getElem?.mp he
    exact h i e view hi (by rw [List.getElem?_map, hi]; rfl)
  · intro h i e view' hi hview
    rw [List.getElem?_map, hi] at hview
    cases hview
    exact h e (List.mem_of_getElem? hi)

/-- The matches in a state depend on its edges only. -/
theorem holds_congr {g' : Graph} {view view' : View} (hview : view.isIndexable = true)
    (hview' : view'.isIndexable = true) (h : ∀ e, g.Has view e ↔ g'.Has view' e) {a : Tuple} :
    p.Holds g view a ↔ p.Holds g' view' a := by
  have hjoined : ∀ filter u v, g.Joined view filter u v ↔ g'.Joined view' filter u v :=
    fun filter u v => exists_congr fun label => and_congr_right fun _ => h _
  simp only [Holds, PatternEdge.Holds, Graph.WellFormed.relates_of_indexable hview,
    Graph.WellFormed.relates_of_indexable hview', hjoined]

/-- **The matches of a plan are the assignments of the pattern**, in slot order. -/
theorem matches_iff_assigns (hp : p.InRange) (h : p.plan ordering views seed = .ok op)
    {t : Tuple} : op.plan.Matches g t ↔
      t.length = p.vars.length ∧ p.Assigns g views (op.toDeclarationOrder t) := by
  obtain ⟨hcheck, -, hperm, -, -, -, rfl⟩ := plan_eq_ok_iff.mp h
  have htwo := two_le_of_checkEdges hp hcheck
  have hloop := (checkEdges_eq_ok_iff.mp hcheck).2
  have hlength := length_of_ordering hperm
  have hwidth : Plan.width ⟨p.stagesOf ordering views seed⟩ = p.vars.length := by
    rw [Plan.width, stagesOf, List.length_map, List.length_range, hlength]
    omega
  rw [Plan.Matches, hwidth, Assigns, OrderedPlan.length_toDeclarationOrder]
  refine and_congr_right fun ht => ?_
  rw [and_iff_right ht]
  -- the rule of an edge and the edge ask for the same thing
  have hedge : ∀ e ∈ p.edges, ∀ view,
      (∃ u v, t[(placedRule ordering e view).2.slot]? = some u ∧
        t[(placedRule ordering e view).1 + 1]? = some v ∧
        (placedRule ordering e view).2.Admits g u v) ↔
      e.Holds g view (OrderedPlan.toDeclarationOrder
        ⟨⟨p.stagesOf ordering views seed⟩, ordering⟩ t) := by
    intro e he view
    rw [placedRule_holds_iff hperm (hp e he).1 (hloop e he), PatternEdge.Holds,
      OrderedPlan.getElem?_toDeclarationOrder hperm ht (hp e he).1,
      OrderedPlan.getElem?_toDeclarationOrder hperm ht (hp e he).2]
  constructor
  · intro hsat i e view he hview
    have hmem := List.mem_of_getElem? he
    refine (hedge e hmem view).mp ?_
    have hstage := placedRule_stage_lt hperm (hp e hmem).1 (hloop e hmem) (hp e hmem).2 view
    rw [← hlength] at hstage
    refine hsat _ _ (getElem?_stagesOf.mpr ⟨hstage, rfl⟩) _ (mem_stageRules.mpr ?_)
    exact mem_placedRules.mpr ⟨i, e, view, he, hview, rfl⟩
  · intro hassigns s stage hs r hr
    obtain ⟨-, rfl⟩ := getElem?_stagesOf.mp hs
    obtain ⟨i, e, view, he, hview, heq⟩ := mem_placedRules.mp (mem_stageRules.mp hr)
    have hholds := (hedge e (List.mem_of_getElem? he) view).mpr (hassigns i e view he hview)
    rwa [← heq] at hholds

/-- Putting tuples in the order of the variables turns the matches of a plan into the
assignments, one for one. -/
theorem assigns_of_matches (hp : p.InRange) (h : p.plan ordering views seed = .ok op)
    {tuples : List Tuple} (hnodup : tuples.Nodup) (hmem : ∀ t, t ∈ tuples ↔ op.plan.Matches g t) :
    (tuples.map op.toDeclarationOrder).Nodup ∧
      ∀ a, a ∈ tuples.map op.toDeclarationOrder ↔ p.Assigns g views a := by
  have hperm : op.ordering.Perm (List.range p.vars.length) := by
    obtain ⟨-, -, hperm, -, -, -, rfl⟩ := plan_eq_ok_iff.mp h
    exact hperm
  refine ⟨?_, fun a => ?_⟩
  · refine hnodup.map_on fun t ht t' ht' heq => ?_
    have hlength := ((matches_iff_assigns hp h).mp ((hmem t).mp ht)).1
    have hlength' := ((matches_iff_assigns hp h).mp ((hmem t').mp ht')).1
    exact OrderedPlan.toDeclarationOrder_injective hperm hlength hlength' heq
  · rw [List.mem_map]
    constructor
    · intro h
      obtain ⟨t, ht, rfl⟩ := h
      exact ((matches_iff_assigns hp h).mp ((hmem t).mp ht)).2
    · intro ha
      have heq := OrderedPlan.toDeclarationOrder_toSlotOrder hperm ha.1
      refine ⟨op.toSlotOrder a, (hmem _).mpr ((matches_iff_assigns hp h).mpr ⟨?_, ?_⟩), heq⟩
      · exact OrderedPlan.length_toSlotOrder hperm a
      · rwa [heq]

theorem yields_assigns (hp : p.InRange) (hg : g.Reachable)
    (h : p.plan ordering views seed = .ok op) (n : Nat) :
    op.Yields g n (p.Assigns g views) := by
  have hvalid : op.plan.Valid := by
    obtain ⟨-, -, -, -, -, hvalid, rfl⟩ := plan_eq_ok_iff.mp h
    exact Plan.validate_eq_ok_iff.mp hvalid
  have hassigns := assigns_of_matches hp h (Plan.nodup_depthFirst hg.wellFormed hvalid)
    fun t => Plan.mem_depthFirst hg.wellFormed hvalid
  refine ⟨fun hn => ⟨_, Plan.delivers_batches hg.wellFormed hvalid hn, ?_⟩,
    Plan.overflows hvalid g⟩
  rwa [Plan.flatten_batches]

/-- What is yielded does not depend on the batches in which it is delivered. -/
theorem mem_of_yields {n : Nat} {wanted : Tuple → Prop} (h : op.Yields g n wanted)
    {batches : List (List Tuple)} (hdelivers : op.plan.Delivers g n batches) (a : Tuple) :
    a ∈ batches.flatten.map op.toDeclarationOrder ↔ wanted a := by
  rcases Nat.lt_or_ge batchLimit n with hn | hn
  · exact ((h.overflows hn).not_delivers batches hdelivers).elim
  · obtain ⟨batches', hdelivers', -, hmem⟩ := h.delivers hn
    rw [hdelivers.flatten_eq hdelivers']
    exact hmem a

theorem defaultPlan_eq_ok (h : p.defaultPlan = .ok op) :
    ∃ ordering, p.plan ordering (p.edges.map fun _ => .merged) 0 = .ok op := by
  obtain ⟨ordering, -, hplan⟩ := bind_eq_ok_iff.mp h
  exact ⟨ordering, hplan⟩

/-- **Planning preserves meaning**: an accepted ordering and seed yield the assignments of
the pattern under the views. So they are the same for all accepted orderings and seeds,
and those of the default plan are the matches in the merged view. -/
theorem plan_exact (hp : p.InRange) (hg : g.Reachable) :
    (∀ ordering views seed op, p.plan ordering views seed = .ok op →
      ∀ n, op.Yields g n (p.Assigns g views)) ∧
    (∀ views ordering seed op ordering' seed' op', p.plan ordering views seed = .ok op →
      p.plan ordering' views seed' = .ok op' →
      ∀ n n' batches batches', op.plan.Delivers g n batches → op'.plan.Delivers g n' batches' →
        ∀ a, a ∈ batches.flatten.map op.toDeclarationOrder ↔
          a ∈ batches'.flatten.map op'.toDeclarationOrder) ∧
    (∀ op, p.defaultPlan = .ok op → ∀ n, op.Yields g n (p.Holds g .merged)) := by
  refine ⟨fun ordering views seed op h n => yields_assigns hp hg h n, ?_, fun op h n => ?_⟩
  · intro views ordering seed op ordering' seed' op' h h' n n' batches batches' hb hb' a
    rw [mem_of_yields (yields_assigns hp hg h n) hb, mem_of_yields (yields_assigns hp hg h' n') hb']
  -- the default plan reads every edge from the merged view
  · obtain ⟨ordering, hplan⟩ := defaultPlan_eq_ok h
    exact (yields_assigns hp hg hplan n).congr fun a => assigns_const

/-- A triangle with one filtered edge. -/
def triangle : Pattern := ⟨["a", "b", "c"], [⟨0, 1, .any⟩, ⟨1, 2, ⟨5⟩⟩, ⟨0, 2, .any⟩]⟩

/-- A graph whose only edge is being deleted while another one is being added. -/
def turningGraph : Graph :=
  [.add ⟨7, 8, ⟨1⟩⟩, .commit, .delete ⟨7, 8, ⟨1⟩⟩, .add ⟨8, 9, ⟨5⟩⟩].foldl Graph.step .empty

theorem triangle_inRange : triangle.InRange := by
  simp [triangle, InRange]

theorem turningGraph_reachable : turningGraph.Reachable :=
  (Graph.Reachable.origin .empty).foldl _

/-- The triangle planned by default, and planned around its last edge from a log. -/
theorem plan_exact_triangle :
    triangle.InRange ∧ turningGraph.Reachable ∧
      (∃ op, triangle.defaultPlan = .ok op ∧
        op.Yields turningGraph 2 (triangle.Holds turningGraph .merged)) ∧
      (∃ op, triangle.plan [2, 0, 1] [.merged, .permanent, .diffMinus] 2 = .ok op ∧
        op.Yields turningGraph 2
          (triangle.Assigns turningGraph [.merged, .permanent, .diffMinus])) := by
  obtain ⟨hplan, -, hdefault⟩ := plan_exact triangle_inRange turningGraph_reachable
  exact ⟨triangle_inRange, turningGraph_reachable, ⟨_, rfl, hdefault _ rfl 2⟩,
    ⟨_, rfl, hplan [2, 0, 1] _ 2 _ rfl 2⟩⟩

end Pattern
end DeltaMatch
