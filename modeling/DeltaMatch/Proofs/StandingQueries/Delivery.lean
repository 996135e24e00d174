import DeltaMatch.Proofs.Graph.Pending
import DeltaMatch.Proofs.StandingQueries.Tracking
import Mathlib.Algebra.Ring.Nat

/-!
# Delivery and failure

Where every registered pattern can be evaluated, only a sink can make an application fail, and by
then the graph is committed. Each sink gets the batches of its own changes up to the first one it
turns down, whatever the other sinks answer, and there is nothing left to deliver the next time.
A pattern that cannot be evaluated makes it panic before the commit. Sinks of different kinds are
states of one.
-/

namespace DeltaMatch

/-- The batches of changes that are in order already. -/
def ChangeSet.batches (n : Nat) (c : ChangeSet) : List (Change × List Tuple) :=
  (chunksOf n c.emerged).map (Change.emerged, ·) ++ (chunksOf n c.deleted).map (Change.deleted, ·)

namespace Pattern

variable {p : Pattern} {g : Graph} {c : ChangeSet}

theorem SortedChanges.changeBatches_eq (h : p.SortedChanges g c) (n : Nat) :
    changeBatches n c = c.batches n := by
  rw [changeBatches, sortTuples_of_ascending h.emerged_ascending,
    sortTuples_of_ascending h.deleted_ascending, ChangeSet.batches]

/-- Nothing changes under an empty batch. -/
theorem sortedChanges_of_idle (p : Pattern) (h : g.Idle) : p.SortedChanges g {} := by
  have hmatches : ∀ a, p.Holds g .merged a ↔ p.Holds g .permanent a := fun a =>
    holds_congr rfl rfl fun e => by rw [Graph.Has, h.list_eq, Graph.Has]
  refine ⟨⟨.nil, .nil, fun a => ?_, fun a => ?_⟩, .nil, .nil⟩
  · simp [hmatches]
  · simp [hmatches]

end Pattern

namespace StandingQueries

variable {σ : Type} {sink : ChangeSink σ} {g : Graph} {n : Nat}

/-! ## Computing changes -/

/-- **No registration fails to be evaluated**, if each of them can be. -/
theorem exists_deltas (hg : g.Reachable) {registrations : List (Registration σ)}
    (hvalid : ∀ r ∈ registrations, r.pattern.validate = .ok ())
    (h : ∀ r ∈ registrations, r.pattern.Evaluable g n) :
    ∃ changes, (deltas g n registrations).1 = .ok changes ∧
      List.Forall₂ (fun r c => r.pattern.SortedChanges g c) registrations changes := by
  induction registrations with
  | nil => exact ⟨[], rfl, .nil⟩
  | cons r rest ih =>
    obtain ⟨hvalid, hrestValid⟩ := List.forall_mem_cons.mp hvalid
    obtain ⟨hevaluable, hrest⟩ := List.forall_mem_cons.mp h
    obtain ⟨changes, hdeltas, hsorted⟩ := ih hrestValid hrest
    obtain ⟨⟨stats, hresult⟩, hc⟩ := Pattern.collect_changes hvalid hg hevaluable
    rw [deltas]
    simp only [hresult, hdeltas]
    exact ⟨_, rfl, .cons hc hsorted⟩

/-- The first registration that cannot be evaluated panics, and those behind it do not matter. -/
theorem exists_panic_of_not_evaluable (hg : g.Reachable) {registrations : List (Registration σ)}
    (hvalid : ∀ r ∈ registrations, r.pattern.validate = .ok ()) {r : Registration σ}
    (hr : r ∈ registrations) (h : ¬ r.pattern.Evaluable g n) :
    ∃ e : GraphError, e.isPanic = true ∧ (deltas g n registrations).1 = .error e := by
  induction registrations with
  | nil => cases hr
  | cons first rest ih =>
    obtain ⟨hfirst, hrest⟩ := List.forall_mem_cons.mp hvalid
    rw [deltas]
    by_cases hevaluable : first.pattern.Evaluable g n
    · obtain ⟨⟨stats, hresult⟩, -⟩ := Pattern.collect_changes hfirst hg hevaluable
      have hlater : r ∈ rest := by
        rcases List.mem_cons.mp hr with rfl | hr
        · exact absurd hevaluable h
        · exact hr
      obtain ⟨e, hpanic, hdeltas⟩ := ih hrest hlater
      simp only [hresult, hdeltas]
      exact ⟨e, hpanic, rfl⟩
    · obtain ⟨e, hpanic, hexecute⟩ := DeltaJoin.exists_panic hfirst hg hevaluable
      simp only [hexecute]
      exact ⟨e, hpanic, rfl⟩

/-! ## What the sinks get -/

/-- The registration after its sink has got the batches of changes, with a record of those
that it got. -/
def served (sink : ChangeSink σ) (n : Nat) (r : Registration (σ × List (Change × List Tuple)))
    (c : ChangeSet) : Registration (σ × List (Change × List Tuple)) :=
  { r with sink := ((sink.offerAll r.sink.1 (c.batches n)).1,
      r.sink.2 ++ sink.heard r.sink.1 (c.batches n)) }

/-- The reason of the sink of a registration for turning down a batch of changes. -/
def refusal (sink : ChangeSink σ) (n : Nat) (r : Registration (σ × List (Change × List Tuple)))
    (c : ChangeSet) : Option GraphError :=
  (sink.offerAll r.sink.1 (c.batches n)).2

theorem deliver_recording {registrations : List (Registration (σ × List (Change × List Tuple)))}
    {changes : List ChangeSet}
    (h : List.Forall₂ (fun r c => r.pattern.SortedChanges g c) registrations changes) :
    deliver sink.recording n registrations changes =
      (registrations.zipWith (served sink n) changes,
        (registrations.zipWith (refusal sink n) changes).findSome? id) := by
  induction h with
  | nil => rfl
  | @cons r c registrations changes hc _ ih =>
    obtain ⟨id, name, pattern, state, past⟩ := r
    rw [deliver]
    simp only [ih, hc.changeBatches_eq, Sink.recording_offerAll, List.zipWith_cons_cons]
    refine congrArg₂ Prod.mk rfl ?_
    rw [List.findSome?_cons, refusal]
    cases (sink.offerAll state (c.batches n)).2 <;> rfl

/-- Without changes nothing is offered. -/
theorem deliver_unchanged (registrations : List (Registration σ)) :
    deliver sink n registrations (registrations.map fun _ => {}) = (registrations, none) := by
  induction registrations with
  | nil => rfl
  | cons r rest ih =>
    rw [List.map_cons, deliver]
    simp only [ih, changeBatches_empty, Sink.offerAll]
    rfl

/-! ## Applying -/

/-- The committed state of the one graph is the merged view of the other, and no more is
pending. -/
structure Committed (g g' : Graph) : Prop where
  idle : g'.hasPending = false
  list_eq : ∀ d v, g'.list .permanent d v = g.list .merged d v
  vertexCount_eq : g'.vertexCount .permanent = g.vertexCount .merged

theorem committed_commit (hg : g.Reachable) : Committed g g.commit.1 where
  idle := (hg.step .commit).wellFormed.hasPending_eq_false_iff.mpr hg.wellFormed.idle_commit
  list_eq := hg.wellFormed.list_commit .permanent
  vertexCount_eq := hg.wellFormed.vertexCount_commit .permanent

/-- The report of an application that no sink made fail. -/
def report (q : StandingQueries σ) (g : Graph) (changes : List ChangeSet) : ApplyReport where
  queries := if g.hasPending then q.registrations.length else 0
  emerged := (changes.map fun c => c.emerged.length).sum
  deleted := (changes.map fun c => c.deleted.length).sum
  commit := g.commit.2

section Apply

variable {q : StandingQueries (σ × List (Change × List Tuple))} {c : CountedGraph}

/-- What an application answers when its changes are known. -/
def answer (sink : ChangeSink σ) (q : StandingQueries (σ × List (Change × List Tuple)))
    (g : Graph) (changes : List ChangeSet) : Except GraphError ApplyReport :=
  match (q.registrations.zipWith (refusal sink q.batchSize) changes).findSome? id with
  | some e => .error e
  | none => .ok (q.report g changes)

/-- What an application does with the changes of each registration. -/
structure Delivers (sink : ChangeSink σ) (q : StandingQueries (σ × List (Change × List Tuple)))
    (c : CountedGraph) (changes : List ChangeSet) : Prop where
  /-- The changes are those of the pending batch, found before the commit. -/
  sorted : List.Forall₂ (fun r ch => r.pattern.SortedChanges c.graph ch) q.registrations changes
  result_eq : (q.apply sink.recording c).result = answer sink q c.graph changes
  registry_eq : (q.apply sink.recording c).registry =
    { q with registrations := q.registrations.zipWith (served sink q.batchSize) changes }
  graph_eq : (q.apply sink.recording c).graph.graph = c.graph.commit.1

theorem delivers_of_pending {changes : List ChangeSet} (h : c.graph.hasPending = true)
    (hdeltas : (deltas c.graph q.batchSize q.registrations).1 = .ok changes)
    (hsorted : List.Forall₂ (fun r ch => r.pattern.SortedChanges c.graph ch)
      q.registrations changes) : Delivers sink q c changes := by
  have hdue : q.due c.graph = q.registrations := if_pos h
  obtain ⟨hresult, hregistry, hgraph⟩ := apply_of_computed q sink.recording (by rwa [hdue])
  rw [deliver_recording hsorted] at hresult hregistry
  have hreport : q.report c.graph changes = ⟨changes.length,
      changes.foldl (fun n c => n + c.emerged.length) 0,
      changes.foldl (fun n c => n + c.deleted.length) 0, c.graph.commit.2⟩ := by
    rw [report, if_pos h, hsorted.length_eq, List.sum_eq_foldl, List.sum_eq_foldl, List.foldl_map,
      List.foldl_map]
  refine ⟨hsorted, ?_, hregistry, hgraph⟩
  rw [answer, hreport]
  exact hresult

/-- With nothing pending, there are no changes for anyone. -/
theorem delivers_of_idle (hg : c.graph.Reachable) (h : c.graph.hasPending = false) :
    Delivers sink q c (q.registrations.map fun _ => {}) := by
  have hidle := hg.wellFormed.hasPending_eq_false_iff.mp h
  have hsorted : List.Forall₂ (fun r ch => r.pattern.SortedChanges c.graph ch)
      q.registrations (q.registrations.map fun _ => {}) := by
    rw [List.forall₂_map_right_iff, List.forall₂_same]
    exact fun r _ => r.pattern.sortedChanges_of_idle hidle
  have hdelivery : deliver sink.recording q.batchSize q.registrations _ = _ :=
    deliver_recording hsorted
  rw [deliver_unchanged] at hdelivery
  obtain ⟨hregistrations, hrefusals⟩ := Prod.mk.inj hdelivery
  have hcommit := Graph.commit_of_not_pending h
  have hreport : q.report c.graph (q.registrations.map fun _ => {}) = ⟨0, 0, 0, .zero⟩ := by
    simp [report, h, hcommit]
  obtain ⟨hresult, hregistry, hgraph⟩ := apply_of_idle q sink.recording h
  refine ⟨hsorted, ?_, ?_, ?_⟩
  · rw [answer, ← hrefusals, hreport]
    exact hresult
  · rw [← hregistrations]
    exact hregistry
  · rw [hcommit]
    exact hgraph

theorem exists_delivers (hq : q.Reachable sink.recording) (hg : c.graph.Reachable)
    (h : ∀ r ∈ q.registrations, r.pattern.Evaluable c.graph q.batchSize) :
    ∃ changes, Delivers sink q c changes := by
  cases hpending : c.graph.hasPending with
  | false => exact ⟨_, delivers_of_idle hg hpending⟩
  | true =>
    obtain ⟨changes, hdeltas, hsorted⟩ := exists_deltas hg (fun r hr => (hq.registered r hr).2) h
    exact ⟨changes, delivers_of_pending hpending hdeltas hsorted⟩

/-- A panic leaves registry and graph as they were, the pending batch included. -/
theorem apply_of_not_evaluable (hq : q.Reachable sink.recording) (hg : c.graph.Reachable)
    {r : Registration (σ × List (Change × List Tuple))} (hr : r ∈ q.registrations)
    (h : ¬ r.pattern.Evaluable c.graph q.batchSize) :
    ∃ e : GraphError, e.isPanic = true ∧ (q.apply sink.recording c).result = .error e ∧
      (q.apply sink.recording c).registry = q ∧
      (q.apply sink.recording c).graph.graph = c.graph := by
  obtain ⟨e, hpanic, hdeltas⟩ :=
    exists_panic_of_not_evaluable hg (fun r hr => (hq.registered r hr).2) hr h
  have hpending := Graph.hasPending_of_hasLogged (Classical.not_imp.mp h).1
  have hdue : q.due c.graph = q.registrations := if_pos hpending
  exact ⟨e, hpanic, apply_of_failed q sink.recording (by rwa [hdue])⟩

/-- **An application commits and delivers**, if each registered pattern can be evaluated: the
graph is committed; each sink gets the sorted changes of its pattern, batch by batch up to the
first one it turns down, whatever the others answer; the first of their errors in the order of
registration is the only way to fail; and another application right after finds nothing to
deliver to anyone. If some registered pattern cannot be evaluated, the application panics, and
nothing is committed or delivered. -/
theorem apply_delivers (hq : q.Reachable sink.recording) (hg : c.graph.Reachable) :
    ((∀ r ∈ q.registrations, r.pattern.Evaluable c.graph q.batchSize) →
      (∃ changes, Delivers sink q c changes) ∧
        Committed c.graph (q.apply sink.recording c).graph.graph ∧
        ((q.apply sink.recording c).registry.apply sink.recording
          (q.apply sink.recording c).graph).registry = (q.apply sink.recording c).registry ∧
        ((q.apply sink.recording c).registry.apply sink.recording
          (q.apply sink.recording c).graph).result = .ok ⟨0, 0, 0, .zero⟩) ∧
    (∀ r ∈ q.registrations, ¬ r.pattern.Evaluable c.graph q.batchSize →
      ∃ e : GraphError, e.isPanic = true ∧ (q.apply sink.recording c).result = .error e ∧
        (q.apply sink.recording c).registry = q ∧
        (q.apply sink.recording c).graph.graph = c.graph) := by
  refine ⟨fun h => ?_, fun r hr h => apply_of_not_evaluable hq hg hr h⟩
  obtain ⟨changes, hdelivers⟩ := exists_delivers hq hg h
  have hcommitted : Committed c.graph (q.apply sink.recording c).graph.graph := by
    rw [hdelivers.graph_eq]
    exact committed_commit hg
  obtain ⟨hresult, hregistry, -⟩ := apply_of_idle (q.apply sink.recording c).registry
    sink.recording hcommitted.idle
  exact ⟨⟨changes, hdelivers⟩, hcommitted, hregistry, hresult⟩

/-- A registry of a sink that turns its second batch down, one that turns its first batch
down and one that keeps everything. -/
def mixedRegistry : StandingQueries (Subscriber × List (Change × List Tuple)) where
  nextId := 3
  registrations :=
    [⟨0, "late", .addEdge .empty "x" "y" .any, .recorder { rejected := [1] }, []⟩,
      ⟨1, "early", .addEdge .empty "x" "y" .any, .recorder { rejected := [0] }, []⟩,
      ⟨2, "all", .triangle, .collector {}, []⟩]
  batchSize := 1

theorem mixedRegistry_reachable : mixedRegistry.Reachable Subscriber.receive.recording := by
  have hlate : (StandingQueries.empty 1).register "late" (.addEdge .empty "x" "y" .any)
      (Subscriber.recorder { rejected := [1] }, []) =
      .ok (⟨1, mixedRegistry.registrations.take 1, 1⟩, 0) := rfl
  have hearly : StandingQueries.register ⟨1, mixedRegistry.registrations.take 1, 1⟩ "early"
      (.addEdge .empty "x" "y" .any) (.recorder { rejected := [0] }, []) =
      .ok (⟨2, mixedRegistry.registrations.take 2, 1⟩, 1) := rfl
  have hall : StandingQueries.register ⟨2, mixedRegistry.registrations.take 2, 1⟩ "all"
      .triangle (.collector {}, []) = .ok (mixedRegistry, 2) := rfl
  exact .register (.register (.register (.empty 1) hlate) hearly) hall

/-- A graph that loses one edge and gains another, with two sinks that turn a batch down
and one after them that does not. -/
theorem apply_delivers_mixed :
    mixedRegistry.Reachable Subscriber.receive.recording ∧
      (∀ r ∈ mixedRegistry.registrations, r.pattern.InRange) ∧ Pattern.turningGraph.Reachable ∧
      (∃ changes, Delivers Subscriber.receive mixedRegistry ⟨Pattern.turningGraph, none⟩
        changes) ∧
      Committed Pattern.turningGraph (mixedRegistry.apply Subscriber.receive.recording
        ⟨Pattern.turningGraph, none⟩).graph.graph := by
  have hrange : ∀ r ∈ mixedRegistry.registrations, r.pattern.InRange := by
    have hpair := Pattern.inRange_empty.addEdge "x" "y" .any
    have htriangle := Pattern.triangle_inRange
    simp [mixedRegistry, hpair, htriangle]
  have hg : Pattern.turningGraph.Reachable := Pattern.turningGraph_reachable
  have hsize : mixedRegistry.batchSize ≤ batchLimit := by decide
  obtain ⟨hdelivers, hcommitted, -⟩ :=
    (apply_delivers (c := ⟨Pattern.turningGraph, none⟩) mixedRegistry_reachable hg).1
      fun r hr _ => ⟨hrange r hr, hsize⟩
  exact ⟨mixedRegistry_reachable, hrange, hg, hdelivers, hcommitted⟩

/-- A pattern whose second edge leads to a variable that is not declared, as one that is read
may have it. It passes the validation. -/
def strayPattern : Pattern := ⟨["a", "b"], [⟨0, 1, .any⟩, ⟨0, 5, .any⟩]⟩

/-- A registry of one pattern and a sink that keeps everything. -/
def soleRegistry (pattern : Pattern) (batchSize : Nat) :
    StandingQueries (ChangeSet × List (Change × List Tuple)) :=
  ⟨1, [⟨0, "sole", pattern, {}, []⟩], batchSize⟩

theorem soleRegistry_reachable {pattern : Pattern} (h : pattern.validate = .ok ())
    (batchSize : Nat) : (soleRegistry pattern batchSize).Reachable ChangeSet.collect.recording := by
  have hregister : (StandingQueries.empty batchSize).register "sole" pattern
      (({} : ChangeSet), []) = .ok (soleRegistry pattern batchSize, 0) := by
    rw [register, h]
    rfl
  exact .register (.empty batchSize) hregister

theorem apply_soleRegistry {pattern : Pattern} {batchSize : Nat} {e : GraphError}
    (h : DeltaJoin.Fails pattern c.graph batchSize e) (hvalid : pattern.validate = .ok ())
    (hlogged : c.graph.hasLogged = true) :
    ((soleRegistry pattern batchSize).apply ChangeSet.collect.recording c).result = .error e ∧
      ((soleRegistry pattern batchSize).apply ChangeSet.collect.recording c).graph.graph =
        c.graph := by
  have hdeltas : (deltas c.graph (soleRegistry pattern batchSize).batchSize
      ((soleRegistry pattern batchSize).due c.graph)).1 = .error e := by
    rw [due, if_pos (Graph.hasPending_of_hasLogged hlogged), soleRegistry, deltas]
    simp only [h.executeDelta_eq hvalid hlogged]
  obtain ⟨hresult, -, hgraph⟩ :=
    apply_of_failed (soleRegistry pattern batchSize) ChangeSet.collect.recording hdeltas
  exact ⟨hresult, hgraph⟩

/-- A registry of a pattern with a stray edge. -/
def strayRegistry : StandingQueries (ChangeSet × List (Change × List Tuple)) :=
  soleRegistry strayPattern defaultBatchSize

/-- A registry with the largest batch size that a word can hold. -/
def largeRegistry : StandingQueries (ChangeSet × List (Change × List Tuple)) :=
  soleRegistry .arrow 18446744073709551615

/-- No sink is in the way, and still the edge that is being added is committed with neither of
the registries. -/
theorem panic_before_commit :
    Plan.oneEdge.Reachable ∧ Plan.oneEdge.hasPending = true ∧
      strayRegistry.Reachable ChangeSet.collect.recording ∧
      (strayRegistry.apply ChangeSet.collect.recording ⟨Plan.oneEdge, none⟩).result =
        .error (.plan .strayVariable) ∧
      (strayRegistry.apply ChangeSet.collect.recording ⟨Plan.oneEdge, none⟩).graph.graph =
        Plan.oneEdge ∧
      largeRegistry.Reachable ChangeSet.collect.recording ∧
      (largeRegistry.apply ChangeSet.collect.recording ⟨Plan.oneEdge, none⟩).result =
        .error .batchTooLarge ∧
      (largeRegistry.apply ChangeSet.collect.recording ⟨Plan.oneEdge, none⟩).graph.graph =
        Plan.oneEdge := by
  have hlogged := Pattern.hasLogged_oneEdge
  have hstray : ¬ strayPattern.InRange := by
    simp [strayPattern, Pattern.InRange]
  obtain ⟨hresult, hgraph⟩ := apply_soleRegistry (c := ⟨Plan.oneEdge, none⟩)
    (DeltaJoin.fails_of_stray rfl hstray Plan.oneEdge defaultBatchSize) rfl hlogged
  have hlarge := DeltaJoin.fails_of_overflow Pattern.arrow_inRange rfl Plan.oneEdge_reachable
    (by decide : batchLimit < 18446744073709551615)
  obtain ⟨hresult', hgraph'⟩ := apply_soleRegistry (c := ⟨Plan.oneEdge, none⟩) hlarge rfl hlogged
  exact ⟨Plan.oneEdge_reachable, Graph.hasPending_of_hasLogged hlogged,
    soleRegistry_reachable rfl _, hresult, hgraph, soleRegistry_reachable rfl _, hresult', hgraph'⟩

end Apply
end StandingQueries
end DeltaMatch
