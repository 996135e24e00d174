import DeltaMatch.Proofs.Join.Batching

/-!
# Sinks that turn a batch down

A sink may turn down any batch, and may decide so by all that it has been offered before. The
execution ends there: the batches that were offered are those that an accepting sink would have
been offered, up to and including the one turned down. What stages further out had in hand is
not offered any more.
-/

namespace DeltaMatch
namespace Plan

variable {σ : Type} {g : Graph} {p : Plan} {sink : TupleSink σ} {s : σ}

/-- The batches that an execution offers to a sink, in order and with the one turned down. -/
def offered (p : Plan) (g : Graph) (n : Nat) (sink : TupleSink σ) (s : σ) : List (List Tuple) :=
  (p.execute g n sink.recording (s, [])).sink.2

/-- **The offered batches** are those that get to the sink. -/
theorem offered_eq_heard (hg : g.WellFormed) (hp : p.Valid) {n : Nat} (hn : n ≤ batchLimit)
    (sink : TupleSink σ) (s : σ) : p.offered g n sink s = sink.heard s (p.batches g n) := by
  have hsink := (executes_batches hg hp hn sink.recording (s, [])).1
  rw [offered, hsink, Sink.recording_offerAll]
  rfl

theorem Overflows.offered_eq {n : Nat} (h : p.Overflows g n) (sink : TupleSink σ) (s : σ) :
    p.offered g n sink s = [] := by
  rw [offered, h.execute_eq]

/-- The record that is kept of the batches changes nothing for the sink. -/
theorem execute_recording (hg : g.WellFormed) (hp : p.Valid) {n : Nat} (hn : n ≤ batchLimit)
    (sink : TupleSink σ) (s : σ) :
    (p.execute g n sink.recording (s, [])).sink.1 = (p.execute g n sink s).sink ∧
      (p.execute g n sink.recording (s, [])).result = (p.execute g n sink s).result := by
  obtain ⟨hsink, hresult⟩ := executes_batches hg hp hn sink s
  obtain ⟨hrecorded, hresult'⟩ := executes_batches hg hp hn sink.recording (s, [])
  rw [hrecorded, hresult', hsink, hresult, Sink.recording_offerAll]
  exact ⟨rfl, rfl⟩

/-- What an execution makes of the batches that there are to offer. Either the sink takes them
all, and the execution succeeds; or some batch is the first that the sink turns down, is the
last to be offered, and the execution fails for the sink's reason, leaving the sink as it is. -/
def StopsAtRejection (p : Plan) (g : Graph) (n : Nat) (batches : List (List Tuple))
    (sink : TupleSink σ) (s : σ) : Prop :=
  ((sink.offerAll s batches).2 = none ∧ p.offered g n sink s = batches ∧
      ∃ stats, (p.execute g n sink s).result = .ok stats) ∨
    ∃ before batch after s' s'' e, batches = before ++ batch :: after ∧
      sink.offerAll s before = (s', none) ∧ sink s' batch = (s'', some e) ∧
      p.offered g n sink s = before ++ [batch] ∧
      (p.execute g n sink s).result = .error e ∧ (p.execute g n sink s).sink = s''

theorem stopsAtRejection_batches (hg : g.WellFormed) (hp : p.Valid) {n : Nat} (hn : n ≤ batchLimit)
    (sink : TupleSink σ) (s : σ) : p.StopsAtRejection g n (p.batches g n) sink s := by
  obtain ⟨hsink, hresult⟩ := executes_batches hg hp hn sink s
  rw [StopsAtRejection, offered_eq_heard hg hp hn, hsink, hresult]
  rcases sink.heard_cases s (p.batches g n) with
    ⟨hnone, heq⟩ | ⟨before, batch, after, s', s'', e, hsplit, hbefore, hbatch, heq, hafter⟩
  · refine Or.inl ⟨hnone, heq, p.depthFirstWork g, ?_⟩
    rw [hnone]
  · refine Or.inr ⟨before, batch, after, s', s'', e, hsplit, hbefore, hbatch, heq, ?_, ?_⟩
    · rw [hafter]
    · rw [hafter]

/-- **A sink that turns a batch down stops the execution at once.** There is one sequence of
batches that every accepting sink is offered in full. Any other sink is offered its beginning,
up to and including the first batch that it turns down, and the execution fails with the reason
that the sink gives for that batch. Keeping the record does not influence the sink. With a size for
which no batch can be reserved nothing is offered to any sink. -/
theorem execute_stops_at_rejection (hg : g.Reachable) (hp : p.validate = .ok ()) (n : Nat) :
    (n ≤ batchLimit →
      ∃ batches, (∀ {τ : Type} (sink : TupleSink τ) (s : τ), sink.Accepts s →
          p.offered g n sink s = batches ∧ ∃ stats, (p.execute g n sink s).result = .ok stats) ∧
        ∀ {τ : Type} (sink : TupleSink τ) (s : τ),
          p.StopsAtRejection g n batches sink s ∧
          (p.execute g n sink.recording (s, [])).sink.1 = (p.execute g n sink s).sink ∧
          (p.execute g n sink.recording (s, [])).result = (p.execute g n sink s).result) ∧
    (batchLimit < n → p.Overflows g n ∧
      ∀ {τ : Type} (sink : TupleSink τ) (s : τ), p.offered g n sink s = []) := by
  have hg := hg.wellFormed
  have hp := validate_eq_ok_iff.mp hp
  refine ⟨fun hn => ⟨p.batches g n, fun sink s haccepts => ⟨?_, ?_⟩, fun sink s => ⟨?_, ?_⟩⟩,
    fun hn => ⟨overflows hp g hn, (overflows hp g hn).offered_eq⟩⟩
  · rw [offered_eq_heard hg hp hn, haccepts.heard_eq]
  · exact (delivers_batches hg hp hn sink s haccepts).1
  · exact stopsAtRejection_batches hg hp hn sink s
  · exact execute_recording hg hp hn sink s

/-- Paths of three edges, one prefix at a time, into a sink that turns its second batch down: the
rejection comes up two stages below the seeds, while there are more to come at each. -/
theorem execute_stops_at_rejection_paths :
    let g := ([.add ⟨0, 1, ⟨2⟩⟩, .add ⟨0, 2, ⟨2⟩⟩, .commit, .add ⟨1, 0, ⟨3⟩⟩, .add ⟨2, 0, ⟨3⟩⟩] :
      List Graph.Op).foldl Graph.step .empty
    let rule : Nat → Rule := fun slot => ⟨slot, .forward, .merged, .any⟩
    let p : Plan := ⟨[[rule 0], [rule 1], [rule 2]]⟩
    ∃ batches, p.offered g 0 collectTuples #[] = batches ∧
      p.StopsAtRejection g 0 batches Recorder.record { rejected := [1] } := by
  intro g rule p
  have hg : g.Reachable := (Graph.Reachable.origin .empty).foldl _
  obtain ⟨batches, haccepted, hstops⟩ :=
    (execute_stops_at_rejection hg (p := p) rfl 0).1 (by decide)
  exact ⟨batches, (haccepted collectTuples #[] (collectTuples_accepts #[])).1, (hstops _ _).1⟩

/-- The collecting sink turns nothing down. With the largest size that a word can hold the execution
fails all the same, and the match that is offered with a size of one is not offered. -/
theorem accepting_sink_offered_nothing :
    oneEdge.Reachable ∧ anyEdge.validate = .ok () ∧ collectTuples.Accepts #[] ∧
      [0, 1] ∈ (anyEdge.offered oneEdge 1 collectTuples #[]).flatten ∧
      anyEdge.offered oneEdge 18446744073709551615 collectTuples #[] = [] ∧
      (anyEdge.execute oneEdge 18446744073709551615 collectTuples #[]).result =
        .error .batchTooLarge := by
  have hg := oneEdge_reachable.wellFormed
  have haccepts := collectTuples_accepts #[]
  refine ⟨oneEdge_reachable, rfl, haccepts, ?_, (anyEdge_overflows oneEdge).offered_eq _ _,
    by rw [(anyEdge_overflows oneEdge).execute_eq]⟩
  rw [offered_eq_heard hg anyEdge_valid (by decide), haccepts.heard_eq, flatten_batches]
  exact (mem_depthFirst hg anyEdge_valid).mpr anyEdge_matches

end Plan
end DeltaMatch
