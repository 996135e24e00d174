import DeltaMatch.Proofs.StandingQueries.Apply

/-!
# Standing queries over whole runs

A graph and its registry change by requests, and only an application commits. Along
every run the batches on record for a registration lead from the matches of its pattern
when it was registered to those in the permanent view of the moment.
-/

namespace DeltaMatch

/-- A registry that was set up and used, with whatever graphs. -/
inductive StandingQueries.Reachable {σ : Type} (sink : ChangeSink σ) : StandingQueries σ → Prop
  | empty (batchSize : Nat) : Reachable sink (.empty batchSize)
  | register {q q' : StandingQueries σ} {name : String} {pattern : Pattern} {s : σ} {id : QueryId} :
      Reachable sink q → q.register name pattern s = .ok (q', id) → Reachable sink q'
  | deregister {q : StandingQueries σ} (id : QueryId) :
      Reachable sink q → Reachable sink (q.deregister id).1
  | apply {q : StandingQueries σ} (c : CountedGraph) :
      Reachable sink q → Reachable sink (q.apply sink c).registry

/-- A graph and the registry that commits it. -/
structure Session (σ : Type) where
  graph : CountedGraph
  registry : StandingQueries σ

/-- The requests of a session. -/
inductive Request (σ : Type) where
  | add (e : Edge)
  | delete (e : Edge)
  | label (v : VertexId) (l : Label)
  | discard
  | apply
  | register (name : String) (pattern : Pattern) (sink : σ)
  | deregister (id : QueryId)

namespace Session

variable {σ : Type}

/-- The session after a request; one that is turned down leaves it as it was. -/
def step (sink : ChangeSink σ) (s : Session σ) : Request σ → Session σ
  | .add e => match s.graph.add e with
    | .ok (graph, _) => { s with graph }
    | .error _ => s
  | .delete e => match s.graph.delete e with
    | .ok (graph, _) => { s with graph }
    | .error _ => s
  | .label v l => match s.graph.setVertexLabel v l with
    | .ok graph => { s with graph }
    | .error _ => s
  | .discard => { s with graph := s.graph.discard.1 }
  | .apply =>
    let applied := s.registry.apply sink s.graph
    ⟨applied.graph, applied.registry⟩
  | .register name pattern state => match s.registry.register name pattern state with
    | .ok (registry, _) => { s with registry }
    | .error _ => s
  | .deregister id => { s with registry := (s.registry.deregister id).1 }

/-- The session after some requests. -/
def run (sink : ChangeSink σ) (s : Session σ) (requests : List (Request σ)) : Session σ :=
  requests.foldl (step sink) s

end Session

/-! ## Registrations -/

namespace StandingQueries

variable {σ : Type} {sink : ChangeSink σ}

theorem register_eq_ok {q q' : StandingQueries σ} {name : String} {pattern : Pattern} {s : σ}
    {id : QueryId} (h : q.register name pattern s = .ok (q', id)) :
    pattern.validate = .ok () ∧ id = q.nextId ∧ q'.nextId = q.nextId + 1 ∧
      q'.registrations = q.registrations ++ [⟨q.nextId, name, pattern, s⟩] := by
  unfold register at h
  split at h
  · cases h
  · rename_i hvalid
    cases h
    exact ⟨hvalid, rfl, rfl, rfl⟩

theorem mem_deregister {q : StandingQueries σ} {id : QueryId} {r : Registration σ} :
    r ∈ (q.deregister id).1.registrations ↔ r ∈ q.registrations ∧ r.id ≠ id := by
  simp [deregister]

/-- Numbers are given out once, so those in use lie below the next one, and only patterns
that were found valid are registered. -/
theorem Reachable.registered {q : StandingQueries σ} (h : q.Reachable sink) :
    ∀ r ∈ q.registrations, r.id < q.nextId ∧ r.pattern.validate = .ok () := by
  induction h with
  | empty => exact fun r hr => nomatch hr
  | register _ hreg ih =>
    obtain ⟨hvalid, -, hnext, hregistrations⟩ := register_eq_ok hreg
    intro r hr
    rw [hregistrations, List.mem_append, List.mem_singleton] at hr
    rw [hnext]
    rcases hr with hr | rfl
    · exact ⟨Nat.lt_succ_of_lt (ih r hr).1, (ih r hr).2⟩
    · exact ⟨Nat.lt_succ_self _, hvalid⟩
  | deregister id _ ih => exact fun r hr => ih r (mem_deregister.mp hr).1
  | @apply q c _ ih =>
    intro r' hr'
    rw [nextId_apply]
    rcases apply_cases q sink c with ⟨hregistry, -⟩ | ⟨-, -, -, hall⟩
    · rw [hregistry] at hr'
      exact ih r' hr'
    · obtain ⟨r, hr, changes, -, rfl⟩ := (exists_of_forall₂ hall).2 r' hr'
      exact ih r hr

end StandingQueries

/-! ## Graphs in a session -/

namespace Session

open Pattern (triangle turningGraph)

variable {σ : Type} {sink : ChangeSink σ}

theorem step_add (sink : ChangeSink σ) (s : Session σ) (e : Edge) :
    s.step sink (.add e) = { s with graph := s.graph.serve (.change (.add e)) } := by
  rw [step, CountedGraph.serve]
  cases s.graph.add e <;> rfl

theorem step_delete (sink : ChangeSink σ) (s : Session σ) (e : Edge) :
    s.step sink (.delete e) = { s with graph := s.graph.serve (.change (.delete e)) } := by
  rw [step, CountedGraph.serve]
  cases s.graph.delete e <;> rfl

theorem step_label (sink : ChangeSink σ) (s : Session σ) (v : VertexId) (l : Label) :
    s.step sink (.label v l) = { s with graph := s.graph.serve (.change (.label v l)) } := by
  rw [step, CountedGraph.serve]
  cases s.graph.setVertexLabel v l <;> rfl

/-! ## Tracking -/

/-- The session holds the registration, and its record leads from some matches to those in
the permanent view. -/
structure Tracks (sink : ChangeSink σ) (id : QueryId) (pattern : Pattern) (before : Set Tuple)
    (s : Session (σ × List (Change × List Tuple))) : Prop where
  reachable : s.graph.graph.Reachable
  fresh : id < s.registry.nextId
  registered : ∃ r ∈ s.registry.registrations, r.id = id
  tracked : ∀ r ∈ s.registry.registrations, r.id = id → r.pattern = pattern ∧
    sink.Accepts r.sink.1 ∧ Replays before (singleChanges r.sink.2)
      {a | pattern.Holds s.graph.graph .permanent a}

namespace Tracks

variable {id : QueryId} {pattern : Pattern} {before : Set Tuple}
  {s : Session (σ × List (Change × List Tuple))}

/-- Edits stay out of the permanent view. -/
theorem edit (h : Tracks sink id pattern before s) {op : Graph.Op} {graph : CountedGraph}
    (hgraph : graph.graph = s.graph.graph.step op) (hop : op ≠ .commit) :
    Tracks sink id pattern before { s with graph } := by
  have hmatches : {a | pattern.Holds graph.graph .permanent a} =
      {a | pattern.Holds s.graph.graph .permanent a} := by
    ext a
    refine Pattern.holds_congr rfl rfl fun e => ?_
    rw [hgraph, Graph.Has, Graph.list_permanent_step hop, Graph.Has]
  refine ⟨?_, h.fresh, h.registered, fun r hr hid => ?_⟩
  · show graph.graph.Reachable
    rw [hgraph]
    exact h.reachable.step op
  · rw [hmatches]
    exact h.tracked r hr hid

theorem register (h : Tracks sink id pattern before s) {q : StandingQueries _} {id' : QueryId}
    {name : String} {other : Pattern} {state : σ × List (Change × List Tuple)}
    (hreg : s.registry.register name other state = .ok (q, id')) :
    Tracks sink id pattern before { s with registry := q } := by
  obtain ⟨-, -, hnext, hregistrations⟩ := StandingQueries.register_eq_ok hreg
  refine ⟨h.reachable, ?_, ?_, fun r hr hid => ?_⟩
  · show id < q.nextId
    rw [hnext]
    exact Nat.lt_succ_of_lt h.fresh
  · obtain ⟨r, hr, hid⟩ := h.registered
    refine ⟨r, ?_, hid⟩
    rw [hregistrations]
    exact List.mem_append_left _ hr
  · -- the new registration has a number of its own
    rw [hregistrations, List.mem_append, List.mem_singleton] at hr
    rcases hr with hr | rfl
    · exact h.tracked r hr hid
    · exact absurd h.fresh (Nat.not_lt.mpr (Nat.le_of_eq hid))

theorem deregister (h : Tracks sink id pattern before s) {id' : QueryId} (hne : id' ≠ id) :
    Tracks sink id pattern before { s with registry := (s.registry.deregister id').1 } := by
  refine ⟨h.reachable, h.fresh, ?_, fun r hr hid => ?_⟩
  · obtain ⟨r, hr, hid⟩ := h.registered
    exact ⟨r, StandingQueries.mem_deregister.mpr ⟨hr, by rw [hid]; exact Ne.symm hne⟩, hid⟩
  · exact h.tracked r (StandingQueries.mem_deregister.mp hr).1 hid

/-- A commit brings exactly the delivered changes. -/
theorem apply (h : Tracks sink id pattern before s) (hvalid : pattern.validate = .ok ()) :
    Tracks sink id pattern before
      ⟨(s.registry.apply sink.recording s.graph).graph,
        (s.registry.apply sink.recording s.graph).registry⟩ := by
  rcases StandingQueries.apply_cases s.registry sink.recording s.graph with
    ⟨hregistry, hgraph⟩ | ⟨hpending, hgraph, hnext, hall⟩
  · refine ⟨?_, ?_, ?_, ?_⟩
    · rw [hgraph]
      exact h.reachable
    · rw [hregistry]
      exact h.fresh
    · rw [hregistry]
      exact h.registered
    · rw [hregistry, hgraph]
      exact h.tracked
  · obtain ⟨hforward, hbackward⟩ := exists_of_forall₂ hall
    refine ⟨?_, ?_, ?_, fun r' hr' hid => ?_⟩
    · rw [hgraph]
      have hcommit := h.reachable.step .commit
      rwa [Graph.step, Graph.commit, hpending] at hcommit
    · rw [hnext]
      exact h.fresh
    · obtain ⟨r, hr, hid⟩ := h.registered
      obtain ⟨r', hr', changes, -, rfl⟩ := hforward r hr
      exact ⟨_, hr', hid⟩
    · obtain ⟨r, hr, changes, hchanges, rfl⟩ := hbackward r' hr'
      obtain ⟨hpattern, haccepts, hreplays⟩ := h.tracked r hr hid
      obtain ⟨rid, name, rpattern, state, history⟩ := r
      simp only at hpattern haccepts hreplays
      subst hpattern
      -- the changes were computed before the commit, from the batch that it folds
      have hexact : rpattern.Changes s.graph.graph changes := by
        obtain ⟨⟨stats, hresult⟩, rfl⟩ := hchanges
        exact Pattern.changes_of_collected hvalid h.reachable hresult
      have hmatches : {a | rpattern.Holds s.graph.graph .merged a} =
          {a | rpattern.Holds s.graph.graph.folded .permanent a} := by
        ext a
        exact Pattern.holds_congr rfl rfl fun e => (h.reachable.wellFormed.has_folded).symm
      rw [hgraph, StandingQueries.offered]
      simp only
      rw [Sink.recording_offerAll, haccepts.heard_eq, singleChanges_append, ← hmatches]
      exact ⟨trivial, haccepts.offerAll _, hreplays.append (hexact.replays _)⟩

theorem step (h : Tracks sink id pattern before s) (hvalid : pattern.validate = .ok ())
    {request : Request (σ × List (Change × List Tuple))} (hother : request ≠ .deregister id) :
    Tracks sink id pattern before (s.step sink.recording request) := by
  cases request with
  | add e =>
    rw [step_add]
    exact h.edit (CountedGraph.graph_serve_change _ _) nofun
  | delete e =>
    rw [step_delete]
    exact h.edit (CountedGraph.graph_serve_change _ _) nofun
  | label v l =>
    rw [step_label]
    exact h.edit (CountedGraph.graph_serve_change _ _) nofun
  | discard => exact h.edit (show _ = s.graph.graph.step .discard from rfl) nofun
  | apply => exact h.apply hvalid
  | register name other state =>
    rw [Session.step]
    cases hreg : s.registry.register name other state with
    | error e => exact h
    | ok result => exact h.register hreg
  | deregister id' => exact h.deregister fun heq => hother (congrArg _ heq)

theorem run (h : Tracks sink id pattern before s) (hvalid : pattern.validate = .ok ())
    {requests : List (Request (σ × List (Change × List Tuple)))}
    (hother : ∀ request ∈ requests, request ≠ .deregister id) :
    Tracks sink id pattern before (s.run sink.recording requests) := by
  induction requests generalizing s with
  | nil => exact h
  | cons request rest ih =>
    have hstep := h.step hvalid (hother request List.mem_cons_self)
    exact ih hstep fun request' hmem => hother request' (List.mem_cons_of_mem _ hmem)

end Tracks

/-- **Deliveries track the matches**: at every point of a run, the batches delivered to an
accepting sink since its registration lead from the matches in the permanent view of then
to those in the permanent view of now. -/
theorem deliveries_track_matches
    {q q' : StandingQueries (σ × List (Change × List Tuple))} {c : CountedGraph} {name : String}
    {pattern : Pattern} {state : σ} {id : QueryId} (hq : q.Reachable sink.recording)
    (hg : c.graph.Reachable) (haccepts : sink.Accepts state)
    (hreg : q.register name pattern (state, []) = .ok (q', id))
    {requests : List (Request (σ × List (Change × List Tuple)))}
    (hother : ∀ request ∈ requests, request ≠ .deregister id) :
    (∃ r ∈ (run sink.recording ⟨c, q'⟩ requests).registry.registrations, r.id = id) ∧
      ∀ r ∈ (run sink.recording ⟨c, q'⟩ requests).registry.registrations, r.id = id →
        Replays {a | pattern.Holds c.graph .permanent a} (singleChanges r.sink.2)
          {a | pattern.Holds (run sink.recording ⟨c, q'⟩ requests).graph.graph .permanent a} := by
  obtain ⟨hvalid, rfl, hnext, hregistrations⟩ := StandingQueries.register_eq_ok hreg
  have hstart : Tracks sink q.nextId pattern {a | pattern.Holds c.graph .permanent a} ⟨c, q'⟩ := by
    refine ⟨hg, ?_, ?_, fun r hr hid => ?_⟩
    · show q.nextId < q'.nextId
      rw [hnext]
      exact Nat.lt_succ_self _
    · refine ⟨⟨q.nextId, name, pattern, state, []⟩, ?_, rfl⟩
      rw [hregistrations]
      exact List.mem_append_right _ (List.mem_singleton_self _)
    · rw [hregistrations, List.mem_append, List.mem_singleton] at hr
      rcases hr with hr | rfl
      -- no earlier registration has the number
      · exact absurd (hq.registered r hr).1 (Nat.not_lt.mpr (Nat.le_of_eq hid.symm))
      · exact ⟨rfl, haccepts, .nil⟩
  have hend := hstart.run hvalid hother
  exact ⟨hend.registered, fun r hr hid => (hend.tracked r hr hid).2.2⟩

/-- The triangle registered while edits are pending, followed by an application, another
registration, an edit, a discard and a second application. -/
theorem deliveries_track_triangle :
    StandingQueries.Reachable ChangeSet.collect.recording (.empty 2) ∧ turningGraph.Reachable ∧
      ChangeSet.collect.Accepts {} ∧
      ∃ q', (StandingQueries.empty 2).register "triangle" triangle ({}, []) = .ok (q', 0) ∧
        (∃ r ∈ (run ChangeSet.collect.recording ⟨⟨turningGraph, none⟩, q'⟩
            [.apply, .register "twin" triangle ({}, []), .add ⟨7, 8, ⟨1⟩⟩, .discard,
              .apply]).registry.registrations, r.id = 0) ∧
        ∀ r ∈ (run ChangeSet.collect.recording ⟨⟨turningGraph, none⟩, q'⟩
            [.apply, .register "twin" triangle ({}, []), .add ⟨7, 8, ⟨1⟩⟩, .discard,
              .apply]).registry.registrations, r.id = 0 →
          Replays {a | triangle.Holds turningGraph .permanent a} (singleChanges r.sink.2)
            {a | triangle.Holds (run ChangeSet.collect.recording ⟨⟨turningGraph, none⟩, q'⟩
              [.apply, .register "twin" triangle ({}, []), .add ⟨7, 8, ⟨1⟩⟩, .discard,
                .apply]).graph.graph .permanent a} := by
  have hq : StandingQueries.Reachable ChangeSet.collect.recording (.empty 2) := .empty 2
  have hg : turningGraph.Reachable := Pattern.turningGraph_reachable
  refine ⟨hq, hg, ChangeSet.collect_accepts {}, _, rfl, ?_⟩
  exact deliveries_track_matches hq hg (ChangeSet.collect_accepts {}) rfl (by simp)

end Session
end DeltaMatch
