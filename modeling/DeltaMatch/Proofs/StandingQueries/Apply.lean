import DeltaMatch.StandingQueries
import DeltaMatch.Proofs.Delta.Replay
import DeltaMatch.Proofs.Graph.Counters

/-!
# What an application does

An application either leaves registry and graph as they were, or commits the graph and
offers each registration the changes of its own pattern. Sinks do not see each other:
what one answers changes nothing for the rest.
-/

namespace DeltaMatch

/-- The collecting sink puts each side of the changes in order. -/
theorem ChangeSet.collect_offerAll (n : Nat) (c : ChangeSet) :
    ChangeSet.collect.offerAll {} (changeBatches n c) =
      (⟨sortTuples c.emerged, sortTuples c.deleted⟩, none) := by
  rw [changeBatches, Sink.offerAll_append (by rw [collect_offerAll_emerged]),
    collect_offerAll_emerged, collect_offerAll_deleted, flatten_chunksOf, flatten_chunksOf]
  rfl

/-- The changes, each side strictly ascending. -/
structure Pattern.SortedChanges (p : Pattern) (g : Graph) (c : ChangeSet) : Prop
    extends p.Changes g c where
  emerged_ascending : c.emerged.Pairwise (· < ·)
  deleted_ascending : c.deleted.Pairwise (· < ·)

namespace Pattern

variable {p : Pattern} {g : Graph} {n : Nat}

/-- **Collecting changes succeeds**, if the evaluation runs through, and sorts them. -/
theorem collect_changes (hvalid : p.validate = .ok ()) (hg : g.Reachable) (h : p.Evaluable g n) :
    (∃ stats, (p.executeDelta g n ChangeSet.collect {}).result = .ok stats) ∧
      p.SortedChanges g (p.executeDelta g n ChangeSet.collect {}).sink := by
  obtain ⟨c, hc, stats, lookups, -, -, hexecute⟩ := exists_changes hvalid hg h
  rw [hexecute, ChangeSet.collect_offerAll]
  refine ⟨⟨stats, rfl⟩, ⟨?_, ?_, ?_, ?_⟩, ?_, ?_⟩
  · exact (sortTuples_perm _).nodup_iff.mpr hc.nodup_emerged
  · exact (sortTuples_perm _).nodup_iff.mpr hc.nodup_deleted
  · exact fun a => mem_sortTuples.trans (hc.mem_emerged a)
  · exact fun a => mem_sortTuples.trans (hc.mem_deleted a)
  · exact ascending_sortTuples hc.nodup_emerged
  · exact ascending_sortTuples hc.nodup_deleted

/-- Collected changes are exact, since there are none after a panic. -/
theorem changes_of_collected (hvalid : p.validate = .ok ()) (hg : g.Reachable) {stats : DeltaStats}
    (h : (p.executeDelta g n ChangeSet.collect {}).result = .ok stats) :
    p.Changes g (p.executeDelta g n ChangeSet.collect {}).sink := by
  by_cases hevaluable : p.Evaluable g n
  · exact (collect_changes hvalid hg hevaluable).2.toChanges
  · obtain ⟨e, -, hexecute⟩ := DeltaJoin.exists_panic hvalid hg hevaluable
    rw [hexecute] at h
    cases h

end Pattern

namespace StandingQueries

variable {σ : Type} {sink : ChangeSink σ} {g : Graph} {n : Nat}

/-! ## Computing and delivering -/

/-- The changes are those that an evaluation for the registration has collected. -/
def ChangesOf (g : Graph) (n : Nat) (r : Registration σ) (c : ChangeSet) : Prop :=
  (∃ stats, (r.pattern.executeDelta g n ChangeSet.collect {}).result = .ok stats) ∧
    c = (r.pattern.executeDelta g n ChangeSet.collect {}).sink

/-- Each computed set of changes is paired with its own registration. -/
theorem forall₂_deltas {registrations : List (Registration σ)} {changes : List ChangeSet}
    (h : (deltas g n registrations).1 = .ok changes) :
    List.Forall₂ (ChangesOf g n) registrations changes := by
  induction registrations generalizing changes with
  | nil =>
    cases h
    exact .nil
  | cons r rest ih =>
    rw [deltas] at h
    simp only at h
    split at h
    · cases h
    · rename_i stats hresult
      obtain ⟨others, hrest, rfl⟩ := map_eq_ok_iff.mp h
      exact .cons ⟨⟨stats, hresult⟩, rfl⟩ (ih hrest)

/-- The registration with its sink having been offered changes. -/
def offered (sink : ChangeSink σ) (n : Nat) (r : Registration σ) (c : ChangeSet) :
    Registration σ :=
  { r with sink := (sink.offerAll r.sink (changeBatches n c)).1 }

theorem fst_deliver_cons (r : Registration σ) (rest : List (Registration σ)) (c : ChangeSet)
    (changes : List ChangeSet) : (deliver sink n (r :: rest) (c :: changes)).1 =
      offered sink n r c :: (deliver sink n rest changes).1 := rfl

/-- Every registration is offered its changes, whatever the other sinks answer. -/
theorem forall₂_deliver {registrations : List (Registration σ)} {changes : List ChangeSet}
    {related : Registration σ → ChangeSet → Prop}
    (h : List.Forall₂ related registrations changes) :
    List.Forall₂ (fun r r' => ∃ c, related r c ∧ r' = offered sink n r c) registrations
      (deliver sink n registrations changes).1 := by
  induction h with
  | nil => exact .nil
  | @cons r c rest changes hrelated _ ih =>
    rw [fst_deliver_cons]
    exact .cons ⟨c, hrelated, rfl⟩ ih

/-! ## Applying -/

theorem deliver_nil (registrations : List (Registration σ)) :
    deliver sink n registrations [] = (registrations, none) := by
  cases registrations <;> rfl

/-- The registrations whose changes an application computes. -/
def due (q : StandingQueries σ) (g : Graph) : List (Registration σ) :=
  if g.hasPending then q.registrations else []

/-- Once the changes are there, the graph is committed whatever the sinks answer. -/
theorem apply_of_computed (q : StandingQueries σ) (sink : ChangeSink σ) {c : CountedGraph}
    {changes : List ChangeSet}
    (hdeltas : (deltas c.graph q.batchSize (q.due c.graph)).1 = .ok changes) :
    (q.apply sink c).result =
        (match (deliver sink q.batchSize q.registrations changes).2 with
          | some e => .error e
          | none => .ok ⟨changes.length, changes.foldl (fun n c => n + c.emerged.length) 0,
              changes.foldl (fun n c => n + c.deleted.length) 0, c.graph.commit.2⟩) ∧
      (q.apply sink c).registry =
        { q with registrations := (deliver sink q.batchSize q.registrations changes).1 } ∧
      (q.apply sink c).graph.graph = c.graph.commit.1 := by
  rw [due] at hdeltas
  rw [apply]
  simp only [hdeltas]
  rw [CountedGraph.graph_commit, CountedGraph.snd_commit]
  exact ⟨rfl, trivial, rfl⟩

/-- With nothing pending, nothing is due and nothing to commit. -/
theorem apply_of_idle (q : StandingQueries σ) (sink : ChangeSink σ) {c : CountedGraph}
    (h : c.graph.hasPending = false) :
    (q.apply sink c).result = .ok ⟨0, 0, 0, .zero⟩ ∧ (q.apply sink c).registry = q ∧
      (q.apply sink c).graph.graph = c.graph := by
  have hdeltas : (deltas c.graph q.batchSize (q.due c.graph)).1 = .ok [] := by
    rw [due, h]
    rfl
  obtain ⟨hresult, hregistry, hgraph⟩ := apply_of_computed q sink hdeltas
  rw [deliver_nil, Graph.commit_of_not_pending h] at hresult
  rw [deliver_nil] at hregistry
  rw [Graph.commit_of_not_pending h] at hgraph
  exact ⟨hresult, hregistry, hgraph⟩

/-- When some changes cannot be computed, everything stays as it was. -/
theorem apply_of_failed (q : StandingQueries σ) (sink : ChangeSink σ) {c : CountedGraph}
    {e : GraphError} (hdeltas : (deltas c.graph q.batchSize (q.due c.graph)).1 = .error e) :
    (q.apply sink c).result = .error e ∧ (q.apply sink c).registry = q ∧
      (q.apply sink c).graph.graph = c.graph := by
  rw [due] at hdeltas
  rw [apply]
  simp only [hdeltas]
  exact ⟨trivial, trivial, rfl⟩

/-- **The two outcomes of an application**: nothing has happened, or the pending batch is
committed and every registration has been offered its own changes. -/
theorem apply_cases (q : StandingQueries σ) (sink : ChangeSink σ) (c : CountedGraph) :
    ((q.apply sink c).registry = q ∧ (q.apply sink c).graph.graph = c.graph) ∨
      (c.graph.hasPending = true ∧ (q.apply sink c).graph.graph = c.graph.folded ∧
        (q.apply sink c).registry.nextId = q.nextId ∧
        List.Forall₂ (fun r r' => ∃ changes, ChangesOf c.graph q.batchSize r changes ∧
            r' = offered sink q.batchSize r changes)
          q.registrations (q.apply sink c).registry.registrations) := by
  cases hpending : c.graph.hasPending with
  | false => exact Or.inl (apply_of_idle q sink hpending).2
  | true =>
    cases hdeltas : (deltas c.graph q.batchSize (q.due c.graph)).1 with
    | error e => exact Or.inl (apply_of_failed q sink hdeltas).2
    | ok changes =>
      have hcommit : c.graph.commit.1 = c.graph.folded := by
        rw [Graph.commit, hpending]
        rfl
      obtain ⟨-, hregistry, hgraph⟩ := apply_of_computed q sink hdeltas
      rw [due, hpending] at hdeltas
      refine Or.inr ⟨rfl, hgraph.trans hcommit, ?_, ?_⟩
      · rw [hregistry]
      · rw [hregistry]
        exact forall₂_deliver (forall₂_deltas hdeltas)

theorem nextId_apply (q : StandingQueries σ) (sink : ChangeSink σ) (c : CountedGraph) :
    (q.apply sink c).registry.nextId = q.nextId := by
  rcases apply_cases q sink c with ⟨hregistry, -⟩ | ⟨-, -, hnext, -⟩
  · rw [hregistry]
  · exact hnext

end StandingQueries
end DeltaMatch
