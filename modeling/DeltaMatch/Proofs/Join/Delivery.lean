import DeltaMatch.Proofs.Graph.Reachable
import DeltaMatch.Proofs.Join.Transcript
import DeltaMatch.Proofs.Sink

/-!
# What an execution delivers

The batches that a transcript offers make up, laid end to end, the matches of the plan
in depth-first order. A sink that accepts every batch receives them all.
-/

namespace DeltaMatch

namespace Join

variable {σ : Type} {sink : TupleSink σ} {g : Graph} {size : Nat}

/-! ## Offered batches -/

/-- The batch that an event offers. -/
def Event.offer? : Event → Option (List Tuple)
  | .offered batch => some batch
  | .worked _ | .looked _ => none

/-- The batches that a transcript offers. -/
def offers (es : List Event) : List (List Tuple) := es.filterMap Event.offer?

/-- The prefix that an item is. -/
def Item.tuple? : Item → Option Tuple
  | .tuple t => some t
  | .event _ => none

/-- None of the items offers a batch. -/
def Quiet (items : List Item) : Prop := ∀ e, .event e ∈ items → e.offer? = none

/-- **Batching loses nothing**: if the next step delivers the results of each batch in
order, the collecting loop delivers those of all its prefixes in order. -/
theorem flatten_offers_batched {next : List Tuple → List Event} {results : Tuple → List Tuple}
    (hnext : ∀ b, (offers (next b)).flatten = b.flatMap results) {items : List Item}
    (hquiet : Quiet items) (batch : Array Tuple) :
    (offers (batched size next batch items)).flatten =
      (batch.toList ++ items.filterMap Item.tuple?).flatMap results := by
  induction items generalizing batch with
  | nil =>
    rw [batched]
    split
    · rename_i hempty
      rw [Array.isEmpty_iff] at hempty
      simp [hempty, offers]
    · rw [hnext]
      simp
  | cons item rest ih =>
    have hrest : Quiet rest := fun e he => hquiet e (List.mem_cons_of_mem _ he)
    cases item with
    | event e =>
      have he : e.offer? = none := hquiet e List.mem_cons_self
      rw [batched, offers, List.filterMap_cons_none he, List.filterMap_cons_none rfl]
      exact ih hrest batch
    | tuple t =>
      have hitem : (Item.tuple t).tuple? = some t := rfl
      rw [batched, List.filterMap_cons_some hitem]
      split
      · rw [offers, List.filterMap_append, List.flatten_append]
        have hhead := hnext (batch.push t).toList
        have htail := ih hrest #[]
        rw [offers] at hhead htail
        rw [hhead, htail]
        simp
      · rw [ih hrest]
        simp

theorem filterMap_tuple?_flatMap {α : Type} (xs : List α) (items : α → List Item) :
    (xs.flatMap items).filterMap Item.tuple? =
      xs.flatMap fun x => (items x).filterMap Item.tuple? := by
  induction xs with
  | nil => rfl
  | cons x rest ih => rw [List.flatMap_cons, List.filterMap_append, ih, List.flatMap_cons]

theorem Quiet.flatMap {α : Type} {xs : List α} {items : α → List Item}
    (h : ∀ x, Quiet (items x)) : Quiet (xs.flatMap items) := by
  intro e he
  rw [List.mem_flatMap] at he
  obtain ⟨x, -, he⟩ := he
  exact h x e he

theorem filterMap_tuple?_map_event (es : List Event) :
    (es.map Item.event).filterMap Item.tuple? = [] := by
  rw [List.filterMap_map]
  exact List.filterMap_eq_nil_iff.mpr fun _ _ => rfl

theorem quiet_stageItems {stage : Stage} {t : Tuple} : Quiet (stageItems g stage t) := by
  intro e he
  rw [stageItems, List.mem_append] at he
  rcases he with he | he
  · simp [extensionEvents] at he
    rcases he with rfl | ⟨r, -, rfl⟩ | rfl <;> rfl
  · simp at he

theorem filterMap_tuple?_stageItems {stage : Stage} {t : Tuple} :
    (stageItems g stage t).filterMap Item.tuple? =
      (candidatesAt g stage t).1.map fun v => t ++ [v] := by
  rw [stageItems, List.filterMap_append, filterMap_tuple?_map_event, List.nil_append,
    List.filterMap_map]
  exact congrFun List.filterMap_eq_map _

theorem flatten_offers_transcript (stages : List Stage) (batch : List Tuple) :
    (offers (transcript g size stages batch)).flatten = batch.flatMap (completions g stages) := by
  induction stages generalizing batch with
  | nil =>
    show [batch].flatten = batch.flatMap fun t => [t]
    simp
  | cons stage rest ih =>
    rw [transcript, flatten_offers_batched ih (Quiet.flatMap fun t => quiet_stageItems),
      filterMap_tuple?_flatMap]
    simp only [filterMap_tuple?_stageItems, List.nil_append, List.flatMap_assoc, List.flatMap_map]
    rfl

/-- The checks of a seeded prefix do nothing but look up lists. -/
theorem exists_looked_of_mem_checkEvents {t : Tuple} {checks : List Rule} {e : Event}
    (he : e ∈ checkEvents g t checks) : ∃ view, e = .looked view := by
  induction checks with
  | nil => cases he
  | cons r rest ih =>
    rw [checkEvents] at he
    rcases List.mem_cons.mp he with rfl | he
    · exact ⟨_, rfl⟩
    · split at he
      · exact ih he
      · cases he

/-- Nor does anything else that a seed pair gives rise to. -/
theorem exists_looked_of_mem_pairItems {seed : Rule} {checks : List Rule}
    {pair : VertexId × VertexId} {e : Event} (he : .event e ∈ pairItems g seed checks pair) :
    ∃ view, e = .looked view := by
  have hchanged : ∀ e ∈ changedEvents seed, ∃ view, e = .looked view := by
    intro e he
    unfold changedEvents at he
    split at he <;> simp at he <;> exact ⟨_, he⟩
  rw [pairItems, List.mem_append] at he
  rcases he with he | he
  · obtain ⟨e', he', heq⟩ := List.mem_map.mp he
    cases heq
    exact hchanged e he'
  · split at he
    · rw [List.mem_append] at he
      rcases he with he | he
      · obtain ⟨e', he', heq⟩ := List.mem_map.mp he
        cases heq
        exact exists_looked_of_mem_checkEvents he'
      · split at he <;> simp at he
    · cases he

theorem quiet_pairItems {seed : Rule} {checks : List Rule} {pair : VertexId × VertexId} :
    Quiet (pairItems g seed checks pair) := by
  intro e he
  obtain ⟨view, rfl⟩ := exists_looked_of_mem_pairItems he
  rfl

theorem filterMap_tuple?_pairItems (seed : Rule) (checks : List Rule)
    (pairs : List (VertexId × VertexId)) :
    (pairs.flatMap (pairItems g seed checks)).filterMap Item.tuple? =
      ((pairs.filter (changed g seed)).map (seedPrefix seed.direction)).filter
        (passes g checks) := by
  induction pairs with
  | nil => rfl
  | cons pair rest ih =>
    rw [List.flatMap_cons, List.filterMap_append, ih, pairItems, List.filterMap_append,
      filterMap_tuple?_map_event, List.filter_cons]
    cases changed g seed pair with
    | false => rfl
    | true =>
      simp only [if_true, List.filterMap_append, filterMap_tuple?_map_event, List.nil_append,
        List.map_cons, List.filter_cons]
      cases passes g checks (seedPrefix seed.direction pair) <;> rfl

/-- The offered batches, laid end to end, are the depth-first matches. -/
theorem flatten_offers_planEvents (p : Plan) :
    (offers (planEvents g size p)).flatten = p.depthFirst g := by
  match p with
  | ⟨[]⟩ | ⟨[] :: rest⟩ => rfl
  | ⟨(seed :: checks) :: rest⟩ =>
    have hseeds := filterMap_tuple?_pairItems (g := g) seed checks
      (distinctPairs seed.view (seedEdges g seed))
    rw [planEvents, offers, List.filterMap_cons_none rfl, ← offers,
      flatten_offers_batched (flatten_offers_transcript rest)
        (Quiet.flatMap fun pair => quiet_pairItems), hseeds]
    rfl

/-! ## Transcripts and sinks -/

/-- The result of an execution, given what the sink answered in the end. -/
def verdict : Option GraphError → Except GraphError Unit
  | none => .ok ()
  | some e => .error e

/-- An offered batch ends the execution or lets it go on with what the sink became. -/
theorem run_offered (batch : List Tuple) (m : Step σ Unit) (s : σ) (stats : JoinStats)
    (lookups : Lookups) :
    ((Event.offered batch).perform sink >>= fun _ => m).run ⟨s, stats, lookups⟩ =
      match sink s batch with
      | (s', none) => m.run ⟨s', stats, lookups⟩
      | (s', some e) => (.error e, ⟨s', stats, lookups⟩) := by
  have hrun : ((Event.offered batch).perform sink >>= fun _ => m).run ⟨s, stats, lookups⟩ =
      ((match (sink s batch).2 with
        | none => pure ()
        | some e => throw e : Step σ Unit) >>= fun _ => m).run
          ⟨(sink s batch).1, stats, lookups⟩ := rfl
  rw [hrun]
  rcases sink s batch with ⟨s', _ | error⟩ <;> rfl

/-- A transcript ends where its batches, offered one after the other, end. -/
theorem run_play (sink : TupleSink σ) (es : List Event) (p : Progress σ) :
    ∃ p', (play sink es).run p = (verdict (sink.offerAll p.sink (offers es)).2, p') ∧
      p'.sink = (sink.offerAll p.sink (offers es)).1 := by
  induction es generalizing p with
  | nil => exact ⟨p, rfl, rfl⟩
  | cons e rest ih =>
    cases e with
    | worked amount => exact ih { p with stats := p.stats.plus amount }
    | looked view => exact ih { p with lookups := p.lookups.record view }
    | offered batch =>
      -- only an offered batch can end the execution
      obtain ⟨s, stats, lookups⟩ := p
      have hoffers : offers (.offered batch :: rest) = batch :: offers rest := rfl
      rw [hoffers, Sink.offerAll, play, run_offered]
      rcases sink s batch with ⟨s', _ | error⟩
      · exact ih ⟨s', stats, lookups⟩
      · exact ⟨⟨s', stats, lookups⟩, rfl, rfl⟩

end Join

/-! ## Exactness -/

namespace Plan

variable {σ : Type} {g : Graph}

/-- The batches that an execution offers to a sink that accepts them all. -/
def batches (p : Plan) (g : Graph) (n : Nat) : List (List Tuple) :=
  Join.offers (Join.planEvents g (batchSizeOf n) p)

theorem flatten_batches (p : Plan) (n : Nat) : (p.batches g n).flatten = p.depthFirst g :=
  Join.flatten_offers_planEvents p

/-- Batches of a size can be reserved if the size is within the limit; zero counts as one. -/
theorem batchSizeOf_le {n : Nat} (hn : n ≤ batchLimit) : batchSizeOf n ≤ batchLimit :=
  Nat.max_le.mpr ⟨hn, by decide⟩

/-- What becomes of a sink and of the result, be the sink what it may. -/
theorem execute_eq_offerAll (hg : g.WellFormed) {p : Plan} (hp : p.Valid) {n : Nat}
    (hn : n ≤ batchLimit) (sink : TupleSink σ) (s : σ) :
    (p.execute g n sink s).sink = (sink.offerAll s (p.batches g n)).1 ∧
      ∃ stats, (p.execute g n sink s).result =
        (Join.verdict (sink.offerAll s (p.batches g n)).2).map fun _ => stats := by
  obtain ⟨p', hrun, hsink⟩ := Join.run_play sink
    (Join.planEvents g (batchSizeOf n) p) { sink := s }
  rw [execute, Join.run_eq_play hg hp (batchSizeOf_le hn), hrun]
  exact ⟨hsink, p'.stats, rfl⟩

/-- Every execution ends in a panic, before it looks anything up and before it offers anything. -/
structure Overflows (p : Plan) (g : Graph) (n : Nat) : Prop where
  execute_eq : ∀ {σ : Type} (sink : TupleSink σ) (s : σ),
    p.execute g n sink s = ⟨.error .batchTooLarge, s, {}⟩

/-- **Beyond the limit no batch can be reserved**, be there anything to put into it or not. -/
theorem overflows {p : Plan} (hp : p.Valid) (g : Graph) {n : Nat} (hn : batchLimit < n) :
    p.Overflows g n := by
  refine ⟨fun sink s => ?_⟩
  have hsize : batchLimit < batchSizeOf n := Nat.lt_of_lt_of_le hn (Nat.le_max_left n 1)
  rw [execute, Join.run_of_overflow hp hsize]
  rfl

/-- Every execution with an accepting sink succeeds and offers it the batches in order. -/
def Delivers (p : Plan) (g : Graph) (n : Nat) (batches : List (List Tuple)) : Prop :=
  ∀ {σ : Type} (sink : TupleSink σ) (s : σ), sink.Accepts s →
    (∃ stats, (p.execute g n sink s).result = .ok stats) ∧
      (p.execute g n sink s).sink = (sink.offerAll s batches).1

/-- What is delivered is determined, as the collecting sink shows. -/
theorem Delivers.flatten_eq {p : Plan} {n : Nat} {b b' : List (List Tuple)}
    (h : p.Delivers g n b) (h' : p.Delivers g n b') : b.flatten = b'.flatten := by
  have hb := (h collectTuples #[] (collectTuples_accepts #[])).2
  have hb' := (h' collectTuples #[] (collectTuples_accepts #[])).2
  rw [hb', collectTuples_offerAll, collectTuples_offerAll] at hb
  simpa using (congrArg Array.toList hb).symm

theorem delivers_batches (hg : g.WellFormed) {p : Plan} (hp : p.Valid) {n : Nat}
    (hn : n ≤ batchLimit) : p.Delivers g n (p.batches g n) := by
  intro σ sink s haccepts
  obtain ⟨hsink, stats, hresult⟩ := execute_eq_offerAll hg hp hn sink s
  rw [haccepts] at hresult
  exact ⟨⟨stats, hresult⟩, hsink⟩

/-- What overflows delivers nothing, not even that there is nothing. -/
theorem Overflows.not_delivers {p : Plan} {n : Nat} (h : p.Overflows g n)
    (batches : List (List Tuple)) : ¬ p.Delivers g n batches := by
  intro hdelivers
  obtain ⟨stats, hresult⟩ := (hdelivers collectTuples #[] (collectTuples_accepts #[])).1
  rw [h.execute_eq] at hresult
  cases hresult

/-- **An execution delivers each match exactly once and nothing else**, with batches of any size
that can be reserved. With a larger one it panics before the graph is read. -/
theorem execute_exact (hg : g.Reachable) {p : Plan} (hp : p.validate = .ok ()) (n : Nat) :
    (n ≤ batchLimit → ∃ batches, p.Delivers g n batches ∧ batches.flatten.Nodup ∧
      ∀ t, t ∈ batches.flatten ↔ p.Matches g t) ∧
    (batchLimit < n → p.Overflows g n) := by
  have hp := validate_eq_ok_iff.mp hp
  refine ⟨fun hn => ⟨p.batches g n, delivers_batches hg.wellFormed hp hn, ?_, fun t => ?_⟩,
    overflows hp g⟩
  · rw [flatten_batches]
    exact nodup_depthFirst hg.wellFormed hp
  · rw [flatten_batches]
    exact mem_depthFirst hg.wellFormed hp

/-- The in-neighbours of the source of an edge that is being added. -/
theorem execute_exact_before_added_edge :
    ([.add ⟨0, 1, ⟨2⟩⟩, .commit, .add ⟨1, 2, ⟨3⟩⟩].foldl Graph.step .empty).Reachable ∧
      validate ⟨[[⟨0, .forward, .diffPlus, .any⟩], [⟨0, .backward, .permanent, ⟨2⟩⟩]]⟩ = .ok () ∧
      ∃ batches, Delivers ⟨[[⟨0, .forward, .diffPlus, .any⟩], [⟨0, .backward, .permanent, ⟨2⟩⟩]]⟩
          ([.add ⟨0, 1, ⟨2⟩⟩, .commit, .add ⟨1, 2, ⟨3⟩⟩].foldl Graph.step .empty) 1 batches ∧
        batches.flatten.Nodup ∧ ∀ t, t ∈ batches.flatten ↔
          Matches ⟨[[⟨0, .forward, .diffPlus, .any⟩], [⟨0, .backward, .permanent, ⟨2⟩⟩]]⟩
            ([.add ⟨0, 1, ⟨2⟩⟩, .commit, .add ⟨1, 2, ⟨3⟩⟩].foldl Graph.step .empty) t := by
  have hreach := (Graph.Reachable.origin .empty).foldl
    [.add ⟨0, 1, ⟨2⟩⟩, .commit, .add ⟨1, 2, ⟨3⟩⟩]
  exact ⟨hreach, rfl, (execute_exact hreach rfl 1).1 (by decide)⟩

/-- A graph without vertices, to which an edge is being added. -/
def oneEdge : Graph := ([.add ⟨0, 1, ⟨2⟩⟩] : List Graph.Op).foldl Graph.step .empty

theorem oneEdge_reachable : oneEdge.Reachable := (Graph.Reachable.origin .empty).foldl _

theorem has_oneEdge {view : View} {e : Edge} :
    oneEdge.Has view e ↔ view = .merged ∧ e = ⟨0, 1, ⟨2⟩⟩ := by
  have hstaged : oneEdge = Graph.empty.stageAdd ⟨0, 1, ⟨2⟩⟩ := by
    rw [oneEdge, List.foldl_cons, List.foldl_nil, Graph.step_add_eq]
    refine if_neg (not_or.mpr ⟨?_, Graph.not_has_empty _ _⟩)
    decide
  rw [hstaged, Graph.has_stageAdd, or_iff_left (Graph.not_has_empty view e)]

/-- The plan that asks for an edge. -/
def anyEdge : Plan := ⟨[[⟨0, .forward, .merged, .any⟩]]⟩

theorem anyEdge_valid : anyEdge.Valid := validate_eq_ok_iff.mp rfl

theorem anyEdge_matches : anyEdge.Matches oneEdge [0, 1] := by
  refine ⟨rfl, Join.satisfies_cons.mpr ⟨fun r hr => ?_, Join.satisfies_nil⟩⟩
  rw [List.mem_singleton.mp hr]
  exact ⟨0, 1, rfl, rfl, ⟨2⟩, rfl, has_oneEdge.mpr ⟨rfl, rfl⟩⟩

/-- The largest size that a word can hold is beyond the limit. -/
theorem anyEdge_overflows (g : Graph) : anyEdge.Overflows g 18446744073709551615 :=
  overflows anyEdge_valid g (by decide)

/-- With that size the match of the only edge is not delivered. -/
theorem one_edge_not_delivered :
    oneEdge.Reachable ∧ anyEdge.validate = .ok () ∧ anyEdge.Matches oneEdge [0, 1] ∧
      collectTuples.Accepts #[] ∧
      anyEdge.execute oneEdge 18446744073709551615 collectTuples #[] =
        ⟨.error .batchTooLarge, #[], {}⟩ :=
  ⟨oneEdge_reachable, rfl, anyEdge_matches, collectTuples_accepts #[],
    (anyEdge_overflows oneEdge).execute_eq collectTuples #[]⟩

end Plan
end DeltaMatch
