import DeltaMatch.Proofs.Delta.Terms
import DeltaMatch.Proofs.Pattern.Layout

/-!
# Exactness of deltas

The plans of a validated pattern exist for every edge and both logs, each counts its
assignments once, and so the net of the counts is the difference between the matches in
the merged view and those in the permanent view. That is, as long as there is no edge in the
logs or the batches can be reserved: otherwise the first plan panics.
-/

namespace DeltaMatch

variable {p : Pattern} {g : Graph} {n : Nat}

namespace Pattern

/-! ## The plans of a log -/

/-- **Every term of a log is planned** and yields its assignments. -/
theorem exists_yielding_deltaPlans (hp : p.InRange) (hvalid : p.validate = .ok ())
    (hg : g.Reachable) (n : Nat) {diff : View} (hdiff : diff.isIndexable = false) : ∃ plans,
      p.deltaPlans diff = .ok plans ∧ List.Forall₂ (fun op edge =>
        op.Yields g n (p.Assigns g (deltaViews diff p.edges.length edge)))
        plans (List.range p.edges.length) := by
  obtain ⟨plans, hplans, hall⟩ := exists_deltaPlans hp hvalid hdiff
  refine ⟨plans, hplans, hall.imp fun op edge h => ?_⟩
  obtain ⟨ordering, -, hop⟩ := h
  exact yields_assigns hp hg hop n

end Pattern

/-! ## Logs -/

/-- Whether an edge is in one of the logs. Without one no plan is run, although there may be
something else to commit. -/
def Graph.hasLogged (g : Graph) : Bool := !g.diffPlus.isEmpty || !g.diffMinus.isEmpty

namespace Graph

variable {diff : View} {log : EditLog}

theorem hasLogged_eq_false_iff :
    g.hasLogged = false ↔ g.diffPlus.isEmpty = true ∧ g.diffMinus.isEmpty = true := by
  simp [hasLogged]

theorem hasPending_of_hasLogged (h : g.hasLogged = true) : g.hasPending = true := by
  rw [hasLogged] at h
  simp [hasPending, h]

theorem exists_diff (hdiff : diff.isIndexable = false) : ∃ log, g.diff diff = .ok log := by
  cases diff with
  | permanent | merged => cases hdiff
  | diffPlus | diffMinus => exact ⟨_, rfl⟩

theorem not_isIndexable_of_diff (hlog : g.diff diff = .ok log) : diff.isIndexable = false := by
  cases diff with
  | permanent | merged => cases hlog
  | diffPlus | diffMinus => rfl

/-- With nothing logged both states have the same edges. -/
theorem WellFormed.has_merged_iff (hg : g.WellFormed) (h : g.hasLogged = false) (e : Edge) :
    g.Has .merged e ↔ g.Has .permanent e := by
  obtain ⟨hplus, hminus⟩ := hasLogged_eq_false_iff.mp h
  have hadded := hg.mem_plus e
  have hdeleted := hg.mem_minus e
  rw [hg.plus_indexed.isEmpty_iff.mp hplus] at hadded
  rw [hg.minus_indexed.isEmpty_iff.mp hminus] at hdeleted
  simp only [List.not_mem_nil, false_iff, not_and, not_not] at hadded hdeleted
  exact ⟨hadded, hdeleted⟩

end Graph

namespace Pattern

theorem holds_merged_iff (hg : g.WellFormed) (h : g.hasLogged = false) (p : Pattern) (a : Tuple) :
    p.Holds g .merged a ↔ p.Holds g .permanent a :=
  holds_congr rfl rfl (hg.has_merged_iff h)

/-- A delta evaluation of the pattern runs through: if there is anything to evaluate, its edges
name declared variables and batches of the size can be reserved. -/
def Evaluable (p : Pattern) (g : Graph) (n : Nat) : Prop :=
  g.hasLogged = true → p.InRange ∧ n ≤ batchLimit

end Pattern

/-! ## Running them -/

namespace DeltaJoin

open Pattern

/-- A plan counts each assignment it yields once. -/
theorem execute_counter {op : OrderedPlan} {wanted : Tuple → Prop} (h : op.Yields g n wanted)
    (hn : n ≤ batchLimit) (sign : Int) (counts : Counts) : (∃ stats,
      (op.plan.execute g n (counter op sign) counts).result = .ok stats) ∧
      ∀ a, (op.plan.execute g n (counter op sign) counts).sink.getD a 0 =
        counts.getD a 0 + sign * indicator (wanted a) := by
  obtain ⟨batches, hdelivers, hnodup, hmem⟩ := h.delivers hn
  obtain ⟨hresult, hsink⟩ := hdelivers (counter op sign) counts (counter_accepts op sign counts)
  refine ⟨hresult, fun a => ?_⟩
  rw [hsink, counter_offerAll, getD_foldl_tally]
  have hcount : ((batches.flatten.map op.toDeclarationOrder).count a : Int) =
      indicator (wanted a) := by
    by_cases ha : wanted a
    · rw [hnodup.count, if_pos ((hmem a).mpr ha), indicator, if_pos ha]
      rfl
    · rw [hnodup.count, if_neg fun h => ha ((hmem a).mp h), indicator_of_not ha]
      rfl
  rw [hcount]

theorem runPlans_ok {ι : Type} {plans : List OrderedPlan} {indices : List ι}
    {wanted : ι → Tuple → Prop}
    (h : List.Forall₂ (fun op i => op.Yields g n (wanted i)) plans indices) (hn : n ≤ batchLimit)
    (sign : Int) (q : Progress) : ∃ q', runPlans g n sign plans q = (.ok (), q') ∧
      ∀ a, q'.counts.getD a 0 =
        q.counts.getD a 0 + sign * (indices.map fun i => indicator (wanted i a)).sum := by
  induction h generalizing q with
  | nil => exact ⟨q, rfl, fun a => by simp⟩
  | @cons op i plans indices hop _ ih =>
    obtain ⟨⟨stats, hresult⟩, hcounts⟩ := execute_counter hop hn sign q.counts
    rw [runPlans]
    simp only [hresult]
    obtain ⟨q', hrun, hq'⟩ := ih _
    refine ⟨q', hrun, fun a => ?_⟩
    rw [hq', hcounts, List.map_cons, List.sum_cons, Int.mul_add, Int.add_assoc]

theorem runDiff_of_isEmpty {diff : View} {log : EditLog} (hlog : g.diff diff = .ok log)
    (hempty : log.isEmpty = true) (p : Pattern) (n : Nat) (sign : Int) (q : Progress) :
    runDiff g p n diff sign q = (.ok (), q) := by
  rw [runDiff, hlog]
  simp [hempty]

/-- A log adds its terms, also when it is skipped because it is empty. -/
theorem runDiff_ok (hp : p.InRange) (hvalid : p.validate = .ok ()) (hg : g.Reachable)
    (hn : n ≤ batchLimit) {diff : View} (hdiff : diff.isIndexable = false) (sign : Int)
    (q : Progress) : ∃ q', runDiff g p n diff sign q = (.ok (), q') ∧
      ∀ a, q'.counts.getD a 0 = q.counts.getD a 0 + sign * p.terms g a diff p.edges.length := by
  -- a skipped log must have nothing to add, since the terms do not know of the skip
  obtain ⟨log, hlog⟩ := Graph.exists_diff (g := g) hdiff
  cases hempty : log.isEmpty with
  | true =>
    refine ⟨q, runDiff_of_isEmpty hlog hempty p n sign q, fun a => ?_⟩
    rw [terms_of_isEmpty hg.wellFormed hlog hempty]
    simp
  | false =>
    obtain ⟨plans, hplans, hyields⟩ := exists_yielding_deltaPlans hp hvalid hg n hdiff
    obtain ⟨q', hrun, hcounts⟩ := runPlans_ok hyields hn sign q
    refine ⟨q', ?_, hcounts⟩
    rw [runDiff, hlog]
    simp only [hempty, hplans]
    exact hrun

/-- With nothing logged nothing is run. -/
theorem runDiffs_of_unlogged (h : g.hasLogged = false) (p : Pattern) (n : Nat) :
    runDiffs g p n = (.ok (), {}) := by
  obtain ⟨hplus, hminus⟩ := Graph.hasLogged_eq_false_iff.mp h
  have hplus : runDiff g p n .diffPlus 1 {} = _ := runDiff_of_isEmpty rfl hplus p n 1 {}
  have hminus : runDiff g p n .diffMinus (-1) {} = _ := runDiff_of_isEmpty rfl hminus p n (-1) {}
  rw [runDiffs, hplus]
  exact hminus

theorem runDiffs_ok (hvalid : p.validate = .ok ()) (hg : g.Reachable) (h : p.Evaluable g n) :
    ∃ q, runDiffs g p n = (.ok (), q) ∧ ∀ a, q.counts.getD a 0 =
      indicator (p.Holds g .merged a) - indicator (p.Holds g .permanent a) := by
  cases hlogged : g.hasLogged with
  | false =>
    refine ⟨{}, runDiffs_of_unlogged hlogged p n, fun a => ?_⟩
    rw [propext (holds_merged_iff hg.wellFormed hlogged p a), Int.sub_self]
    exact Std.HashMap.getD_empty
  | true =>
    obtain ⟨hp, hn⟩ := h hlogged
    -- emerged matches count for one and deleted ones against one
    have hdiff : View.diffPlus.isIndexable = false := rfl
    obtain ⟨q, hplus, hq⟩ := runDiff_ok hp hvalid hg hn hdiff 1 {}
    have hdiff : View.diffMinus.isIndexable = false := rfl
    obtain ⟨q', hminus, hq'⟩ := runDiff_ok hp hvalid hg hn hdiff (-1) q
    refine ⟨q', ?_, fun a => ?_⟩
    · rw [runDiffs, hplus]
      exact hminus
    · rw [hq', hq, ← terms_telescope]
      simp
      omega

/-! ## Panics -/

/-- Every log with an edge in it ends the evaluation with the error, and nothing is counted. -/
def Fails (p : Pattern) (g : Graph) (n : Nat) (e : GraphError) : Prop :=
  ∀ diff log sign q, g.diff diff = .ok log → log.isEmpty = false →
    runDiff g p n diff sign q = (.error e, q)

theorem runPlans_of_overflows {op : OrderedPlan} (h : op.plan.Overflows g n)
    (rest : List OrderedPlan) (sign : Int) (q : Progress) :
    runPlans g n sign (op :: rest) q = (.error .batchTooLarge, q) := by
  rw [runPlans]
  simp only [h.execute_eq]
  rfl

/-- **Beyond the limit the first plan panics.** -/
theorem fails_of_overflow (hp : p.InRange) (hvalid : p.validate = .ok ()) (hg : g.Reachable)
    (hn : batchLimit < n) : Fails p g n .batchTooLarge := by
  intro diff log sign q hlog hempty
  obtain ⟨plans, hplans, hyields⟩ :=
    exists_yielding_deltaPlans hp hvalid hg n (Graph.not_isIndexable_of_diff hlog)
  obtain ⟨count, hcount⟩ :=
    Nat.exists_eq_succ_of_ne_zero (Nat.ne_of_gt (length_pos_of_validate hvalid))
  rw [hcount, List.range_succ_eq_map] at hyields
  rw [runDiff, hlog]
  simp only [hempty, hplans]
  cases hyields with
  | cons hop _ => exact runPlans_of_overflows (hop.overflows hn) _ sign q

/-- **A pattern with a stray edge panics before it has any plan.** -/
theorem fails_of_stray (hvalid : p.validate = .ok ()) (hstray : ¬ p.InRange) (g : Graph) (n : Nat) :
    Fails p g n (.plan .strayVariable) := by
  intro diff log sign q hlog hempty
  rw [runDiff, hlog]
  simp only [hempty, deltaPlans_of_stray hvalid hstray (Graph.not_isIndexable_of_diff hlog)]
  rfl

/-- What fails does so before the sink is offered anything. -/
theorem Fails.executeDelta_eq {e : GraphError} (h : Fails p g n e) (hvalid : p.validate = .ok ())
    (hlogged : g.hasLogged = true) {σ : Type} (sink : ChangeSink σ) (s : σ) :
    p.executeDelta g n sink s = ⟨.error e, s, {}⟩ := by
  have hrun : runDiffs g p n = (.error e, {}) := by
    rw [runDiffs]
    cases hplus : g.diffPlus.isEmpty with
    | true =>
      have hminus : g.diffMinus.isEmpty = false := by
        simpa [Graph.hasLogged, hplus] using hlogged
      have hskipped : runDiff g p n .diffPlus 1 {} = _ := runDiff_of_isEmpty rfl hplus p n 1 {}
      rw [hskipped]
      exact h .diffMinus g.diffMinus (-1) {} rfl hminus
    | false => rw [h .diffPlus g.diffPlus 1 {} rfl hplus]
  rw [executeDelta, hvalid, hrun]

/-- **What cannot be run through panics.** -/
theorem exists_panic (hvalid : p.validate = .ok ()) (hg : g.Reachable) (h : ¬ p.Evaluable g n) :
    ∃ e : GraphError, e.isPanic = true ∧ ∀ {σ : Type} (sink : ChangeSink σ) (s : σ),
      p.executeDelta g n sink s = ⟨.error e, s, {}⟩ := by
  obtain ⟨hlogged, hfault⟩ := Classical.not_imp.mp h
  by_cases hp : p.InRange
  · have hn : batchLimit < n := Nat.lt_of_not_le fun hn => hfault ⟨hp, hn⟩
    exact ⟨.batchTooLarge, rfl, (fails_of_overflow hp hvalid hg hn).executeDelta_eq hvalid hlogged⟩
  · exact ⟨.plan .strayVariable, rfl,
      (fails_of_stray hvalid hp g n).executeDelta_eq hvalid hlogged⟩

end DeltaJoin

/-! ## Changes -/

namespace Pattern

/-- The matches of one state that are not matches of the other, each once. -/
structure Changes (p : Pattern) (g : Graph) (c : ChangeSet) : Prop where
  nodup_emerged : c.emerged.Nodup
  nodup_deleted : c.deleted.Nodup
  mem_emerged : ∀ a, a ∈ c.emerged ↔ p.Holds g .merged a ∧ ¬ p.Holds g .permanent a
  mem_deleted : ∀ a, a ∈ c.deleted ↔ p.Holds g .permanent a ∧ ¬ p.Holds g .merged a

theorem indicator_sub_pos_iff {after before : Prop} :
    0 < indicator after - indicator before ↔ after ∧ ¬ before := by
  by_cases hafter : after <;> by_cases hbefore : before <;> simp [indicator, hafter, hbefore]

theorem indicator_sub_neg_iff {after before : Prop} :
    indicator after - indicator before < 0 ↔ before ∧ ¬ after := by
  by_cases hafter : after <;> by_cases hbefore : before <;> simp [indicator, hafter, hbefore]

theorem changes_net {counts : DeltaJoin.Counts} (h : ∀ a, counts.getD a 0 =
    indicator (p.Holds g .merged a) - indicator (p.Holds g .permanent a)) :
    p.Changes g (DeltaJoin.net counts) where
  nodup_emerged := DeltaJoin.nodup_emerged_net
  nodup_deleted := DeltaJoin.nodup_deleted_net
  mem_emerged := fun a => by rw [DeltaJoin.mem_emerged_net, h, indicator_sub_pos_iff]
  mem_deleted := fun a => by rw [DeltaJoin.mem_deleted_net, h, indicator_sub_neg_iff]

/-- **A delta evaluation offers the changes**, whatever the sink makes of them. -/
theorem exists_changes (hvalid : p.validate = .ok ()) (hg : g.Reachable)
    (h : p.Evaluable g n) : ∃ c, p.Changes g c ∧ ∃ stats lookups,
      stats.emerged = c.emerged.length ∧ stats.deleted = c.deleted.length ∧
      ∀ {σ : Type} (sink : ChangeSink σ) (s : σ), p.executeDelta g n sink s =
          ⟨(Join.verdict (sink.offerAll s (changeBatches n c)).2).map fun _ => stats,
            (sink.offerAll s (changeBatches n c)).1, lookups⟩ := by
  obtain ⟨q, hrun, hcounts⟩ := DeltaJoin.runDiffs_ok hvalid hg h
  refine ⟨DeltaJoin.net q.counts, changes_net hcounts,
    ⟨q.plansRun, _, _, q.join⟩, q.lookups, rfl, rfl, fun sink s => ?_⟩
  rw [executeDelta, hvalid, hrun]
  simp only
  rcases sink.offerAll s (changeBatches n (DeltaJoin.net q.counts)) with ⟨s', _ | e⟩ <;> rfl

/-- Every delta evaluation with an accepting sink succeeds, reports the numbers of changed
matches, and offers the sink the emerged ones and then the deleted ones. -/
def DeliversDelta (p : Pattern) (g : Graph) (n : Nat) (emerged deleted : List (List Tuple)) :
    Prop :=
  ∀ {σ : Type} (sink : ChangeSink σ) (s : σ), sink.Accepts s →
    (∃ stats, (p.executeDelta g n sink s).result = .ok stats ∧
      stats.emerged = emerged.flatten.length ∧ stats.deleted = deleted.flatten.length) ∧
    (p.executeDelta g n sink s).sink = (sink.offerAll s
      (emerged.map (Change.emerged, ·) ++ deleted.map (Change.deleted, ·))).1

/-- **Deltas are exact**: an evaluation delivers, each side strictly ascending, the matches
in the merged view that are not in the permanent one, and then those in the permanent
view that are not in the merged one. With an edge in the logs and a batch size beyond the limit
it panics instead and delivers nothing. -/
theorem executeDelta_exact (hp : p.InRange) (hvalid : p.validate = .ok ()) (hg : g.Reachable)
    (n : Nat) :
    ((g.hasLogged = true → n ≤ batchLimit) →
      ∃ emerged deleted, p.DeliversDelta g n emerged deleted ∧
        emerged.flatten.Pairwise (· < ·) ∧ deleted.flatten.Pairwise (· < ·) ∧
        (∀ a, a ∈ emerged.flatten ↔ p.Holds g .merged a ∧ ¬ p.Holds g .permanent a) ∧
        (∀ a, a ∈ deleted.flatten ↔ p.Holds g .permanent a ∧ ¬ p.Holds g .merged a)) ∧
    (g.hasLogged = true → batchLimit < n → ∀ {σ : Type} (sink : ChangeSink σ) (s : σ),
      p.executeDelta g n sink s = ⟨.error .batchTooLarge, s, {}⟩) := by
  refine ⟨fun hn => ?_, fun hlogged hn _ sink s =>
    (DeltaJoin.fails_of_overflow hp hvalid hg hn).executeDelta_eq hvalid hlogged sink s⟩
  obtain ⟨c, hc, stats, lookups, hemerged, hdeleted, hexecute⟩ :=
    exists_changes hvalid hg fun hlogged => ⟨hp, hn hlogged⟩
  refine ⟨chunksOf n (sortTuples c.emerged), chunksOf n (sortTuples c.deleted), ?_, ?_⟩
  · intro σ sink s haccepts
    rw [hexecute, haccepts, flatten_chunksOf, flatten_chunksOf, length_sortTuples,
      length_sortTuples]
    exact ⟨⟨stats, rfl, hemerged, hdeleted⟩, rfl⟩
  · rw [flatten_chunksOf, flatten_chunksOf]
    refine ⟨ascending_sortTuples hc.nodup_emerged, ascending_sortTuples hc.nodup_deleted,
      fun a => ?_, fun a => ?_⟩
    · rw [mem_sortTuples, hc.mem_emerged]
    · rw [mem_sortTuples, hc.mem_deleted]

/-- The triangle over the graph that loses one edge and gains another. -/
theorem executeDelta_exact_triangle :
    triangle.InRange ∧ triangle.validate = .ok () ∧ turningGraph.Reachable ∧
      ∃ emerged deleted, triangle.DeliversDelta turningGraph 1 emerged deleted ∧
        emerged.flatten.Pairwise (· < ·) ∧ deleted.flatten.Pairwise (· < ·) ∧
        (∀ a, a ∈ emerged.flatten ↔
          triangle.Holds turningGraph .merged a ∧ ¬ triangle.Holds turningGraph .permanent a) ∧
        (∀ a, a ∈ deleted.flatten ↔
          triangle.Holds turningGraph .permanent a ∧ ¬ triangle.Holds turningGraph .merged a) :=
  ⟨triangle_inRange, rfl, turningGraph_reachable,
    (executeDelta_exact triangle_inRange rfl turningGraph_reachable 1).1 fun _ => by decide⟩

open Plan (oneEdge has_oneEdge oneEdge_reachable)

theorem hasLogged_oneEdge : oneEdge.hasLogged = true := by
  have hwf := oneEdge_reachable.wellFormed
  have hmem : ⟨0, 1, ⟨2⟩⟩ ∈ oneEdge.diffPlus.toList := by
    rw [hwf.mem_plus, has_oneEdge, has_oneEdge]
    exact ⟨⟨rfl, rfl⟩, nofun⟩
  have hplus : oneEdge.diffPlus.isEmpty = false := by
    rw [← Bool.not_eq_true, hwf.plus_indexed.isEmpty_iff]
    exact List.ne_nil_of_mem hmem
  rw [Graph.hasLogged, hplus]
  rfl

/-- The pattern of a single edge. -/
def arrow : Pattern := ⟨["a", "b"], [⟨0, 1, .any⟩]⟩

theorem arrow_inRange : arrow.InRange := by
  simp [arrow, InRange]

theorem arrow_holds_iff {view : View} (hview : view.isIndexable = true) {a : Tuple} :
    arrow.Holds g view a ↔ ∃ u v, a = [u, v] ∧ g.Joined view .any u v := by
  have hedge : arrow.Holds g view a ↔ a.length = 2 ∧ (⟨0, 1, .any⟩ : PatternEdge).Holds g view a :=
    and_congr_right fun _ => List.forall_mem_singleton
  rw [hedge]
  constructor
  · rintro ⟨hlength, u, v, hu, hv, hrelates⟩
    obtain ⟨u', v', rfl⟩ := List.length_eq_two.mp hlength
    cases hu
    cases hv
    exact ⟨_, _, rfl, (Graph.WellFormed.relates_of_indexable hview).mp hrelates⟩
  · rintro ⟨u, v, rfl, hjoined⟩
    exact ⟨rfl, u, v, rfl, rfl, (Graph.WellFormed.relates_of_indexable hview).mpr hjoined⟩

/-- With the largest size that a word can hold the only match is not reported. -/
theorem emerged_match_not_delivered :
    arrow.InRange ∧ arrow.validate = .ok () ∧ oneEdge.Reachable ∧
      (arrow.Holds oneEdge .merged [0, 1] ∧ ¬ arrow.Holds oneEdge .permanent [0, 1]) ∧
      ChangeSet.collect.Accepts {} ∧
      arrow.executeDelta oneEdge 18446744073709551615 ChangeSet.collect {} =
        ⟨.error .batchTooLarge, {}, {}⟩ := by
  have hfails : DeltaJoin.Fails arrow oneEdge 18446744073709551615 .batchTooLarge :=
    DeltaJoin.fails_of_overflow arrow_inRange rfl oneEdge_reachable (by decide)
  refine ⟨arrow_inRange, rfl, oneEdge_reachable, ⟨?_, ?_⟩,
    ChangeSet.collect_accepts {}, hfails.executeDelta_eq rfl hasLogged_oneEdge _ _⟩
  · exact (arrow_holds_iff rfl).mpr ⟨0, 1, rfl, ⟨2⟩, rfl, has_oneEdge.mpr ⟨rfl, rfl⟩⟩
  · intro h
    obtain ⟨u, v, -, label, -, hhas⟩ := (arrow_holds_iff rfl).mp h
    cases (has_oneEdge.mp hhas).1

end Pattern
end DeltaMatch
