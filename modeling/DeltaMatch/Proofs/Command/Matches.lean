import DeltaMatch.Command.Run
import DeltaMatch.Proofs.StandingQueries.Apply

/-!
# The rows of a match and of a delta

For a validated pattern the commands find a plan and its execution succeeds, if batches of the
size can be reserved. The rows of a match are the matches in the merged view, those of a delta the
changes, all of them in ascending order. The number of rows is counted without them.
-/

namespace DeltaMatch

namespace Pattern

variable {p : Pattern}

/-- **A validated pattern has a default plan.** -/
theorem exists_defaultPlan (hp : p.InRange) (hvalid : p.validate = .ok ()) :
    ∃ op, p.defaultPlan = .ok op := by
  have hviews : (p.edges.map fun _ => View.merged).length = p.edges.length := List.length_map _
  obtain ⟨ordering, op, hordering, hop⟩ :=
    exists_plan_from hp hvalid (length_pos_of_validate hvalid) hviews fun i view _ hview => by
      rw [List.getElem?_map] at hview
      obtain ⟨-, -, rfl⟩ := Option.map_eq_some_iff.mp hview
      rfl
  exact ⟨op, bind_eq_ok_iff.mpr ⟨ordering, hordering, hop⟩⟩

/-- The default plan yields the matches in the merged view. -/
theorem yields_defaultPlan {g : Graph} {op : OrderedPlan} (hp : p.InRange) (hg : g.Reachable)
    (h : p.defaultPlan = .ok op) (n : Nat) : op.Yields g n (p.Holds g .merged) := by
  obtain ⟨ordering, hplan⟩ := defaultPlan_eq_ok h
  exact (yields_assigns hp hg hplan n).congr fun a => assigns_const

end Pattern

/-- The counting sink adds up the sizes of the batches. -/
theorem countTuples_offerAll (c : BatchCount) (batches : List (List Tuple)) :
    countTuples.offerAll c batches =
      (⟨c.tuples + batches.flatten.length, c.batches + batches.length⟩, none) := by
  induction batches generalizing c with
  | nil => simp [Sink.offerAll]
  | cons b rest ih =>
    show countTuples.offerAll ⟨c.tuples + b.length, c.batches + 1⟩ rest = _
    rw [ih]
    simp [Nat.add_assoc, Nat.add_comm 1]

/-- Ascending rows are known by their members. -/
theorem rows_eq_of_ascending {rows rows' : List Tuple} (h : rows.Pairwise (· < ·))
    (h' : rows'.Pairwise (· < ·)) (hmem : ∀ a, a ∈ rows ↔ a ∈ rows') : rows = rows' := by
  have hnodup : ∀ {ts : List Tuple}, ts.Pairwise (· < ·) → ts.Nodup := by
    intro ts h
    refine h.imp ?_
    rintro a b hlt rfl
    exact List.lt_irrefl _ hlt
  have hperm : rows.Perm rows' := (List.perm_ext_iff_of_nodup (hnodup h) (hnodup h')).mpr hmem
  refine hperm.eq_of_pairwise ?_ h h'
  intro a b _ _ hab hba
  exact absurd hba (List.lt_asymm hab)

/-- The changes are the same, in whatever batches they are collected. -/
theorem Pattern.SortedChanges.unique {p : Pattern} {g : Graph} {c c' : ChangeSet}
    (h : p.SortedChanges g c) (h' : p.SortedChanges g c') : c = c' := by
  have hemerged : c.emerged = c'.emerged :=
    rows_eq_of_ascending h.emerged_ascending h'.emerged_ascending fun a => by
      rw [h.mem_emerged, h'.mem_emerged]
  have hdeleted : c.deleted = c'.deleted :=
    rows_eq_of_ascending h.deleted_ascending h'.deleted_ascending fun a => by
      rw [h.mem_deleted, h'.mem_deleted]
  cases c
  cases c'
  exact congrArg₂ ChangeSet.mk hemerged hdeleted

namespace Pattern

variable {p : Pattern} {g : Graph}

/-- **Collecting succeeds** with one set of changes, for every size of batches with which the
evaluation runs through. -/
theorem exists_collectDelta (hp : p.InRange) (hvalid : p.validate = .ok ()) (hg : g.Reachable) :
    ∃ c, p.SortedChanges g c ∧ ∀ n, p.Evaluable g n → p.collectDelta g n = .ok c := by
  have hcollect : ∀ n, p.Evaluable g n →
      ∃ c, p.SortedChanges g c ∧ p.collectDelta g n = .ok c := by
    intro n hn
    obtain ⟨⟨stats, hresult⟩, hchanges⟩ := collect_changes hvalid hg hn
    exact ⟨_, hchanges, map_eq_ok_iff.mpr ⟨stats, hresult, rfl⟩⟩
  obtain ⟨c, hc, -⟩ := hcollect 0 fun _ => ⟨hp, Nat.zero_le _⟩
  refine ⟨c, hc, fun n hn => ?_⟩
  obtain ⟨c', hc', hcollected⟩ := hcollect n hn
  rw [hcollected, hc'.unique hc]

/-- With nothing logged there is nothing to reserve batches for. -/
theorem collectDelta_of_unlogged (hvalid : p.validate = .ok ()) (hlogged : g.hasLogged = false)
    (n : Nat) : p.collectDelta g n = .ok {} := by
  have hnet : DeltaJoin.net {} = {} := by simp [DeltaJoin.net]
  rw [collectDelta, executeDelta, hvalid, DeltaJoin.runDiffs_of_unlogged hlogged]
  simp only [hnet, changeBatches_empty, Sink.offerAll]
  rfl

theorem collectDelta_of_overflow (hp : p.InRange) (hvalid : p.validate = .ok ())
    (hg : g.Reachable) (hlogged : g.hasLogged = true) {n : Nat} (hn : batchLimit < n) :
    p.collectDelta g n = .error .batchTooLarge := by
  have hfails := DeltaJoin.fails_of_overflow hp hvalid hg hn
  rw [collectDelta, hfails.executeDelta_eq hvalid hlogged]
  rfl

end Pattern

namespace Command

variable {p : Pattern} {g : Graph} {rows rows' : List Tuple}

/-- The rows are the matches in the merged view, in ascending order. -/
structure IsMatchRows (p : Pattern) (g : Graph) (rows : List Tuple) : Prop where
  ascending : rows.Pairwise (· < ·)
  mem_iff : ∀ a, a ∈ rows ↔ p.Holds g .merged a

theorem IsMatchRows.unique (h : IsMatchRows p g rows) (h' : IsMatchRows p g rows') :
    rows = rows' :=
  rows_eq_of_ascending h.ascending h'.ascending fun a => by rw [h.mem_iff, h'.mem_iff]

/-- An execution of the default plan ends in rows, collected or counted. -/
theorem exists_rows_of_yields {op : OrderedPlan} {n : Nat} (hop : p.defaultPlan = .ok op)
    (hyields : op.Yields g n (p.Holds g .merged)) (hn : n ≤ batchLimit) :
    ∃ rows, IsMatchRows p g rows ∧
      sortedMatches p g n = .ok rows ∧ countMatches p g n = .ok rows.length := by
  obtain ⟨batches, hdelivers, hnodup, hmem⟩ := hyields.delivers hn
  obtain ⟨⟨stats, hresult⟩, hsink⟩ := hdelivers collectTuples #[] (collectTuples_accepts #[])
  have hcounter : countTuples.Accepts {} := fun bs => by rw [countTuples_offerAll]
  obtain ⟨⟨stats', hresult'⟩, hsink'⟩ := hdelivers countTuples {} hcounter
  rw [collectTuples_offerAll] at hsink
  rw [countTuples_offerAll] at hsink'
  refine ⟨sortTuples (batches.flatten.map op.toDeclarationOrder),
    ⟨ascending_sortTuples hnodup, fun a => mem_sortTuples.trans (hmem a)⟩, ?_, ?_⟩
  · rw [sortedMatches, hop]
    refine map_eq_ok_iff.mpr ⟨stats, hresult, ?_⟩
    rw [hsink]
    simp
  · rw [countMatches, hop]
    refine map_eq_ok_iff.mpr ⟨stats', hresult', ?_⟩
    rw [hsink', length_sortTuples, List.length_map]
    simp

/-- **Matching succeeds** with one list of rows, for every size of batches that can be reserved,
and counting gives its length. -/
theorem exists_matchRows (hp : p.InRange) (hvalid : p.validate = .ok ()) (hg : g.Reachable) :
    ∃ rows, IsMatchRows p g rows ∧ ∀ n, n ≤ batchLimit →
      sortedMatches p g n = .ok rows ∧ countMatches p g n = .ok rows.length := by
  obtain ⟨op, hop⟩ := Pattern.exists_defaultPlan hp hvalid
  have hyields := Pattern.yields_defaultPlan hp hg hop
  obtain ⟨rows, hrows, -⟩ := exists_rows_of_yields hop (hyields 0) (Nat.zero_le _)
  refine ⟨rows, hrows, fun n hn => ?_⟩
  obtain ⟨rows', hrows', hlisted, hcounted⟩ := exists_rows_of_yields hop (hyields n) hn
  rw [hrows.unique hrows']
  exact ⟨hlisted, hcounted⟩

/-- With larger batches neither rows nor their number come out. -/
theorem matches_of_overflow (hp : p.InRange) (hvalid : p.validate = .ok ()) (hg : g.Reachable)
    {n : Nat} (hn : batchLimit < n) :
    sortedMatches p g n = .error .batchTooLarge ∧ countMatches p g n = .error .batchTooLarge := by
  obtain ⟨op, hop⟩ := Pattern.exists_defaultPlan hp hvalid
  have hoverflows := (Pattern.yields_defaultPlan hp hg hop n).overflows hn
  constructor
  · simp only [sortedMatches, hop, hoverflows.execute_eq]
    rfl
  · simp only [countMatches, hop, hoverflows.execute_eq]
    rfl

end Command
end DeltaMatch
