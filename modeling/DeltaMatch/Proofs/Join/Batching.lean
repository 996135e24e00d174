import DeltaMatch.Proofs.Join.Totals

/-!
# Batches do not show

Prefixes are cut into batches at every stage, in the middle of a pass and at its end. None of
this shows in what an execution amounts to: it offers the tuples of an evaluation that takes
one prefix after the other through all stages, in the same order, and it does the same work.
Work is a sum over prefixes, and a sum does not depend on how its terms are grouped.
-/

namespace DeltaMatch

/-! ## Work adds up -/

instance : Zero JoinStats := ⟨{}⟩

instance : Add JoinStats := ⟨JoinStats.plus⟩

theorem JoinStats.add_def (a b : JoinStats) : a + b =
    ⟨a.seedsScanned + b.seedsScanned, a.prefixesExtended + b.prefixesExtended,
      a.intersections + b.intersections, a.tuplesEmitted + b.tuplesEmitted⟩ := rfl

theorem JoinStats.zero_def : (0 : JoinStats) = ⟨0, 0, 0, 0⟩ := rfl

instance : AddCommMonoid JoinStats where
  add_assoc a b c := by simp [JoinStats.add_def, Nat.add_assoc]
  zero_add a := by simp [JoinStats.add_def, JoinStats.zero_def]
  add_zero a := by simp [JoinStats.add_def, JoinStats.zero_def]
  add_comm a b := by simp [JoinStats.add_def, Nat.add_comm]
  nsmul := nsmulRec

instance : Zero Lookups := ⟨{}⟩

instance : Add Lookups := ⟨Lookups.plus⟩

theorem Lookups.add_def (a b : Lookups) :
    a + b = ⟨a.permanent + b.permanent, a.merged + b.merged⟩ := rfl

theorem Lookups.zero_def : (0 : Lookups) = ⟨0, 0⟩ := rfl

instance : AddCommMonoid Lookups where
  add_assoc a b c := by simp [Lookups.add_def, Nat.add_assoc]
  zero_add a := by simp [Lookups.add_def, Lookups.zero_def]
  add_zero a := by simp [Lookups.add_def, Lookups.zero_def]
  add_comm a b := by simp [Lookups.add_def, Nat.add_comm]
  nsmul := nsmulRec

/-- A single lookup in a view. -/
def Lookups.one (view : View) : Lookups := record {} view

theorem Lookups.record_eq (l : Lookups) (view : View) : l.record view = l + one view := by
  cases view <;> simp [record, one, add_def]

namespace Join

variable {g : Graph} {size : Nat}

/-- The work of an event. -/
def Event.work : Event → JoinStats
  | .worked amount => amount
  | .looked _ | .offered _ => 0

/-- The lookups of an event. -/
def Event.lookups : Event → Lookups
  | .looked view => .one view
  | .worked _ | .offered _ => 0

/-! ## The evaluation without batches -/

/-- The work of completing a prefix by some stages: each of its extensions is completed before
the next one is begun. -/
def completionWork (g : Graph) : List Stage → Tuple → JoinStats
  | [], _ => { tuplesEmitted := 1 }
  | stage :: rest, t =>
    let (vertices, n) := candidatesAt g stage t
    { prefixesExtended := 1, intersections := n } +
      (vertices.map fun v => completionWork g rest (t ++ [v])).sum

theorem nsmul_emitted (n : Nat) :
    n • ({ tuplesEmitted := 1 } : JoinStats) = { tuplesEmitted := n } := by
  induction n with
  | zero => rfl
  | succ n ih =>
    rw [succ_nsmul, ih]
    rfl

theorem emits_work : Emits Event.work { tuplesEmitted := 1 } := by
  intro batch
  rw [nsmul_emitted, total_cons, total_eq_zero (by simp [Event.work]), add_zero]
  rfl

/-- Matches are offered without a lookup. -/
theorem emits_lookups : Emits Event.lookups 0 := by
  intro batch
  rw [nsmul_zero]
  exact total_eq_zero (by simp [Event.lookups])

theorem total_work_extensionEvents (g : Graph) (stage : Stage) (t : Tuple) :
    total Event.work (extensionEvents g stage t) =
      { prefixesExtended := 1, intersections := (candidatesAt g stage t).2 } := by
  have hlooked : total Event.work (stage.map fun r => .looked r.view) = 0 :=
    total_eq_zero (by simp [Event.work])
  rw [extensionEvents, total_append, total_append, hlooked, add_zero, total, total]
  simp [Event.work, JoinStats.add_def]

theorem completionTotal_work (stages : List Stage) (t : Tuple) :
    completionTotal Event.work { tuplesEmitted := 1 } g stages t = completionWork g stages t := by
  induction stages generalizing t with
  | nil => rfl
  | cons stage rest ih =>
    rw [completionTotal, total_work_extensionEvents, completionWork]
    simp only [ih]

end Join

/-- The work of the evaluation without batches: the edges of the seed are read, and each
seeded prefix is taken through all later stages. -/
def Plan.depthFirstWork (p : Plan) (g : Graph) : JoinStats :=
  match p.stages with
  | (seed :: checks) :: rest =>
    { seedsScanned := (Join.seedEdges g seed).length } +
      ((Join.seeds g seed checks).map (Join.completionWork g rest)).sum
  | _ => 0

namespace Join

variable {g : Graph} {size : Nat}

/-- The first stage reads the edges of the seed. Its lookups are not work. -/
theorem seedTotal_work (seed : Rule) (checks : List Rule) :
    seedTotal Event.work g seed checks = { seedsScanned := (seedEdges g seed).length } := by
  have hidle : (((distinctPairs seed.view (seedEdges g seed)).flatMap
      (pairItems g seed checks)).map (Item.value Event.work fun _ => 0)).sum = 0 := by
    apply List.sum_eq_zero
    intro amount hamount
    obtain ⟨item, hitem, rfl⟩ := List.mem_map.mp hamount
    obtain ⟨pair, -, hitem⟩ := List.mem_flatMap.mp hitem
    cases item with
    | tuple t => rfl
    | event e =>
      obtain ⟨view, rfl⟩ := exists_looked_of_mem_pairItems hitem
      rfl
  rw [seedTotal, hidle, add_zero]
  rfl

/-- **The work of an execution is that of the evaluation without batches.** -/
theorem total_work_planEvents (p : Plan) :
    total Event.work (planEvents g size p) = p.depthFirstWork g := by
  match p with
  | ⟨[]⟩ | ⟨[] :: rest⟩ => rfl
  | ⟨(seed :: checks) :: rest⟩ =>
    rw [total_planEvents emits_work, seedTotal_work, funext (completionTotal_work rest)]
    rfl

/-! ## Sizes of batches -/

/-- The batch is neither empty nor too large. -/
def Sized (size : Nat) (batch : List Tuple) : Prop := batch ≠ [] ∧ batch.length ≤ size

/-- A loop with room left in its batch hands on sized batches only, so whatever the next step
does with these is all that it offers. -/
theorem sized_offers_batched {next : List Tuple → List Event}
    (hnext : ∀ b, Sized size b → ∀ b' ∈ offers (next b), Sized size b') {items : List Item}
    (hquiet : Quiet items) {batch : Array Tuple} (hroom : batch.size < size) :
    ∀ b ∈ offers (batched size next batch items), Sized size b := by
  induction items generalizing batch with
  | nil =>
    rw [batched]
    split
    · simp [offers]
    · rename_i hne
      refine hnext _ ⟨?_, Nat.le_of_lt hroom⟩
      rwa [ne_eq, Array.toList_eq_nil_iff, ← Array.isEmpty_iff]
  | cons item rest ih =>
    have hrest : Quiet rest := fun e he => hquiet e (List.mem_cons_of_mem _ he)
    cases item with
    | event e =>
      have he : e.offer? = none := hquiet e List.mem_cons_self
      rw [batched, offers, List.filterMap_cons_none he]
      exact ih hrest hroom
    | tuple t =>
      rw [batched]
      split
      · -- the batch is full, so its successor is empty and has room
        rename_i hfull
        rw [offers, List.filterMap_append]
        intro b hb
        rcases List.mem_append.mp hb with hb | hb
        · exact hnext _ ⟨by simp, Nat.le_of_eq hfull⟩ b hb
        · have hempty : (#[] : Array Tuple).size < size := Nat.zero_lt_of_lt hroom
          exact ih hrest hempty b hb
      · rename_i hsize
        rw [Array.size_push] at hsize
        exact ih hrest (by rw [Array.size_push]; omega)

theorem sized_offers_transcript (hsize : 0 < size) (stages : List Stage) {batch : List Tuple}
    (hbatch : Sized size batch) : ∀ b ∈ offers (transcript g size stages batch), Sized size b := by
  induction stages generalizing batch with
  | nil =>
    intro b hb
    rw [show b = batch from List.mem_singleton.mp hb]
    exact hbatch
  | cons stage rest ih =>
    rw [transcript]
    exact sized_offers_batched (fun b hb => ih hb) (Quiet.flatMap fun t => quiet_stageItems) hsize

theorem sized_offers_planEvents (hsize : 0 < size) (p : Plan) :
    ∀ b ∈ offers (planEvents g size p), Sized size b := by
  match p with
  | ⟨[]⟩ | ⟨[] :: rest⟩ => exact fun b hb => nomatch hb
  | ⟨(seed :: checks) :: rest⟩ =>
    rw [planEvents, offers, List.filterMap_cons_none rfl]
    exact sized_offers_batched (fun b hb => sized_offers_transcript hsize rest hb)
      (Quiet.flatMap fun pair => quiet_pairItems) hsize

/-! ## The report -/

variable {σ : Type} {sink : TupleSink σ}

/-- When no batch is turned down, all that a transcript says is done. -/
theorem run_play_of_accepted {es : List Event} {p : Progress σ}
    (h : (sink.offerAll p.sink (offers es)).2 = none) : (play sink es).run p =
      (.ok (), ⟨(sink.offerAll p.sink (offers es)).1, p.stats + total Event.work es,
        p.lookups + total Event.lookups es⟩) := by
  induction es generalizing p with
  | nil =>
    have hstats : p.stats + total Event.work [] = p.stats := add_zero _
    have hlookups : p.lookups + total Event.lookups [] = p.lookups := add_zero _
    rw [hstats, hlookups]
    rfl
  | cons e rest ih =>
    rw [total_cons, total_cons, ← add_assoc, ← add_assoc]
    cases e with
    | worked amount =>
      rw [Event.lookups, add_zero]
      exact ih (p := { p with stats := p.stats.plus amount }) h
    | looked view =>
      rw [Event.work, add_zero, Event.lookups, ← Lookups.record_eq]
      exact ih (p := { p with lookups := p.lookups.record view }) h
    | offered batch =>
      obtain ⟨s, stats, lookups⟩ := p
      have hoffers : offers (.offered batch :: rest) = batch :: offers rest := rfl
      rw [hoffers, Sink.offerAll] at h ⊢
      rw [Event.work, add_zero, Event.lookups, add_zero, play, run_offered]
      rcases hsink : sink s batch with ⟨s', _ | error⟩
      · rw [hsink] at h
        exact ih (p := ⟨s', stats, lookups⟩) h
      · rw [hsink] at h
        cases h

end Join

namespace Plan

variable {g : Graph} {p : Plan}

/-- With whatever sink, an execution offers the batches in order, up to the first that is
turned down, and then fails with the reason; if none is, it reports the work. -/
def Executes (p : Plan) (g : Graph) (n : Nat) (batches : List (List Tuple)) (work : JoinStats) :
    Prop :=
  ∀ {σ : Type} (sink : TupleSink σ) (s : σ),
    (p.execute g n sink s).sink = (sink.offerAll s batches).1 ∧
      (p.execute g n sink s).result =
        match (sink.offerAll s batches).2 with
        | none => .ok work
        | some e => .error e

theorem executes_batches (hg : g.WellFormed) (hp : p.Valid) {n : Nat} (hn : n ≤ batchLimit) :
    p.Executes g n (p.batches g n) (p.depthFirstWork g) := by
  intro σ sink s
  obtain ⟨hsink, stats, hresult⟩ := execute_eq_offerAll hg hp hn sink s
  refine ⟨hsink, ?_⟩
  cases hrejection : (sink.offerAll s (p.batches g n)).2 with
  | some e =>
    rw [hresult, hrejection]
    rfl
  | none =>
    have hrun := Join.run_play_of_accepted (p := { sink := s }) hrejection
    rw [execute, Join.run_eq_play hg hp (batchSizeOf_le hn), hrun, Join.total_work_planEvents]
    exact congrArg Except.ok (zero_add _)

/-- **Batching is invisible**: for any two batch sizes for which batches can be reserved, the
offered batches laid end to end are the tuples of the depth-first evaluation and the reported work
is the work of that evaluation, while the batches themselves are never empty and keep to their size,
zero counting as one. Any larger size shows by a panic. -/
theorem batching_invisible (hg : g.Reachable) (hp : p.validate = .ok ()) :
    (∀ n n', n ≤ batchLimit → n' ≤ batchLimit →
      ∃ batches batches', p.Executes g n batches (p.depthFirstWork g) ∧
        p.Executes g n' batches' (p.depthFirstWork g) ∧
        batches.flatten = p.depthFirst g ∧ batches'.flatten = p.depthFirst g ∧
        (∀ b ∈ batches, b ≠ [] ∧ b.length ≤ max n 1) ∧
        ∀ b ∈ batches', b ≠ [] ∧ b.length ≤ max n' 1) ∧
    ∀ n, batchLimit < n → p.Overflows g n := by
  have hp := validate_eq_ok_iff.mp hp
  have hsize : ∀ n, 0 < batchSizeOf n := fun n => Nat.le_max_right n 1
  refine ⟨fun n n' hn hn' => ?_, fun n => overflows hp g⟩
  exact ⟨p.batches g n, p.batches g n', executes_batches hg.wellFormed hp hn,
    executes_batches hg.wellFormed hp hn', flatten_batches p n, flatten_batches p n',
    Join.sized_offers_planEvents (hsize n) p, Join.sized_offers_planEvents (hsize n') p⟩

/-- Paths of two edges over pending edits and a pair joined twice, one prefix at a time and two
at a time. -/
theorem batching_invisible_paths :
    let g := ([.add ⟨0, 1, ⟨2⟩⟩, .add ⟨0, 1, ⟨3⟩⟩, .commit, .add ⟨1, 2, ⟨3⟩⟩, .add ⟨1, 0, ⟨2⟩⟩] :
      List Graph.Op).foldl Graph.step .empty
    let p : Plan := ⟨[[⟨0, .forward, .merged, .any⟩], [⟨1, .forward, .merged, .any⟩]]⟩
    ∃ batches batches', p.Executes g 0 batches (p.depthFirstWork g) ∧
      p.Executes g 2 batches' (p.depthFirstWork g) ∧
      batches.flatten = p.depthFirst g ∧ batches'.flatten = p.depthFirst g ∧
      (∀ b ∈ batches, b ≠ [] ∧ b.length ≤ 1) ∧ ∀ b ∈ batches', b ≠ [] ∧ b.length ≤ 2 := by
  intro g p
  have hg : g.Reachable := (Graph.Reachable.origin .empty).foldl _
  exact (batching_invisible hg (p := p) rfl).1 0 2 (by decide) (by decide)

/-- With a size of one the match of the only edge is delivered and the work reported. The largest
size that a word can hold shows by the error and by the sink, which stays empty. -/
theorem largest_batch_shows :
    oneEdge.Reachable ∧ anyEdge.validate = .ok () ∧
      (anyEdge.execute oneEdge 1 collectTuples #[]).result = .ok (anyEdge.depthFirstWork oneEdge) ∧
      [0, 1] ∈ (anyEdge.execute oneEdge 1 collectTuples #[]).sink.toList ∧
      anyEdge.execute oneEdge 18446744073709551615 collectTuples #[] =
        ⟨.error .batchTooLarge, #[], {}⟩ := by
  have hg := oneEdge_reachable.wellFormed
  obtain ⟨hsink, hresult⟩ :=
    executes_batches hg anyEdge_valid (by decide : 1 ≤ batchLimit) collectTuples #[]
  rw [collectTuples_offerAll] at hsink hresult
  refine ⟨oneEdge_reachable, rfl, hresult, ?_, (anyEdge_overflows oneEdge).execute_eq _ _⟩
  rw [hsink, flatten_batches]
  simpa using (mem_depthFirst hg anyEdge_valid).mpr anyEdge_matches

end Plan
end DeltaMatch
