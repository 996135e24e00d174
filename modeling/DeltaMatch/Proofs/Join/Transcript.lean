import DeltaMatch.Proofs.Join.Matches

/-!
# What an execution does

An execution counts work, counts lookups and offers batches. On a consistent graph a
valid plan does these things in an order that does not depend on the sink: the
transcript of the plan. The sink only decides how much of it takes place, since the
first rejection ends the execution.
-/

namespace DeltaMatch
namespace Join

variable {σ : Type} {sink : TupleSink σ}

/-- One thing that an execution does. -/
inductive Event where
  /-- Adds to the work counters. -/
  | worked (amount : JoinStats)
  /-- Counts a lookup in a view. -/
  | looked (view : View)
  /-- Offers a batch to the sink. -/
  | offered (batch : List Tuple)

/-- Does one thing. -/
def Event.perform (sink : TupleSink σ) : Event → Step σ Unit
  | .worked amount => work (·.plus amount)
  | .looked view => modify fun p => { p with lookups := p.lookups.record view }
  | .offered batch => do
    match ← modifyGet (Progress.offer sink batch) with
    | none => return
    | some e => throw e

/-- Does one thing after the other until one fails. -/
def play (sink : TupleSink σ) : List Event → Step σ Unit
  | [] => pure ()
  | e :: rest => do
    e.perform sink
    play sink rest

theorem play_append (es es' : List Event) :
    play sink (es ++ es') = play sink es >>= fun _ => play sink es' := by
  induction es with
  | nil => simp [play]
  | cons e rest ih => simp [play, ih]

/-! ## Steps as transcripts -/

/-- The step does what the transcript says and yields the value. -/
def Performs {α : Type} (sink : TupleSink σ) (m : Step σ α) (es : List Event) (a : α) : Prop :=
  m = play sink es >>= fun _ => pure a

namespace Performs

variable {α β : Type} {es es' : List Event}

theorem pure (a : α) : Performs sink (Pure.pure a) [] a := by
  simp [Performs, play]

theorem bind {m : Step σ α} {f : α → Step σ β} {a : α} {b : β} (hm : Performs sink m es a)
    (hf : Performs sink (f a) es' b) : Performs sink (m >>= f) (es ++ es') b := by
  rw [Performs, hm, play_append]
  simp only [bind_assoc, pure_bind]
  rw [show f a = _ from hf]

/-- A last step that only reshapes the value. -/
theorem map {m : Step σ α} {a : α} (hm : Performs sink m es a) (f : α → β) :
    Performs sink (m >>= fun x => Pure.pure (f x)) es (f a) := by
  rw [Performs, hm]
  simp

theorem event (e : Event) : Performs sink (e.perform sink) [e] () := by
  simp [Performs, play]

theorem bind_eq {m : Step σ α} {a : α} (h : Performs sink m es a) (f : α → Step σ β) :
    m >>= f = play sink es >>= fun _ => f a := by
  rw [show m = _ from h]
  simp

theorem eq_play {m : Step σ Unit} (h : Performs sink m es ()) : m = play sink es := by
  rw [show m = _ from h]
  simp

end Performs

theorem performs_work (amount : JoinStats) :
    Performs sink (work (·.plus amount)) [.worked amount] () :=
  Performs.event (.worked amount)

theorem performs_emit (batch : List Tuple) : Performs sink (emit sink batch)
    [.worked { tuplesEmitted := batch.length }, .offered batch] () :=
  Performs.bind (performs_work { tuplesEmitted := batch.length }) (Performs.event (.offered batch))

/-! ## Lookups -/

/-- A prefix that has come up in an execution: of a width, all its vertices being
vertices of the merged view. -/
structure Fits (g : Graph) (width : Nat) (t : Tuple) : Prop where
  length : t.length = width
  bounded : ∀ v ∈ t, v.toNat < g.mergedBound

variable {g : Graph} {t : Tuple} {width : Nat}

theorem performs_lookup {v : VertexId} {d : Direction} {view : View}
    (hview : view.isIndexable = true) (hv : v.toNat < g.mergedBound) :
    Performs sink (lookup g v d view) [.looked view] (g.list view d v) := by
  rw [Performs, lookup, Graph.WellFormed.neighbours_eq_ok hview hv]
  simp [orThrow, play, Event.perform]

theorem performs_slotOf {slot : Nat} (h : slot < t.length) :
    Performs sink (orThrow (slotOf t slot)) [] (vertexAt t slot) := by
  rw [slotOf, getElem?_eq_vertexAt h]
  exact Performs.pure _

theorem performs_ruleList (ht : Fits g width t) {r : Rule}
    (hr : r.slot < width ∧ r.view.isIndexable = true) :
    Performs sink (ruleList g t r) [.looked r.view] (listAt g t r) := by
  have hslot : r.slot < t.length := by rw [ht.length]; exact hr.1
  refine Performs.bind (performs_slotOf hslot) (performs_lookup hr.2 ?_)
  exact ht.bounded _ (List.mem_of_getElem? (getElem?_eq_vertexAt hslot))

theorem performs_mapM_ruleList (ht : Fits g width t) {stage : Stage}
    (hstage : ∀ r ∈ stage, r.slot < width ∧ r.view.isIndexable = true) :
    Performs sink (stage.mapM (ruleList g t)) (stage.map fun r => .looked r.view)
      (stage.map (listAt g t)) := by
  induction stage with
  | nil => exact Performs.pure _
  | cons r rest ih =>
    rw [List.mapM_cons]
    have hrest := ih fun r' hr' => hstage r' (List.mem_cons_of_mem _ hr')
    exact Performs.bind (performs_ruleList ht (hstage r List.mem_cons_self))
      (hrest.map (listAt g t r :: ·))

/-- What the extension of a prefix does. -/
def extensionEvents (g : Graph) (stage : Stage) (t : Tuple) : List Event :=
  [.worked { prefixesExtended := 1 }] ++ (stage.map fun r => .looked r.view) ++
    [.worked { intersections := (candidatesAt g stage t).2 }]

theorem performs_extensions (ht : Fits g width t) {stage : Stage}
    (hstage : ∀ r ∈ stage, r.slot < width ∧ r.view.isIndexable = true) :
    Performs sink (extensions g stage t) (extensionEvents g stage t)
      (candidatesAt g stage t).1 := by
  rw [extensionEvents, List.append_assoc]
  refine Performs.bind (performs_work { prefixesExtended := 1 })
    (Performs.bind (performs_mapM_ruleList ht hstage) ?_)
  exact (performs_work { intersections := (candidatesAt g stage t).2 }).map
    fun _ => (candidatesAt g stage t).1

/-- What the check of a seed pair against the other state does. -/
def changedEvents (seed : Rule) : List Event :=
  match seed.view with
  | .permanent | .merged => []
  | .diffPlus => [.looked .permanent]
  | .diffMinus => [.looked .merged]

theorem performs_isChanged {seed : Rule} {pair : VertexId × VertexId}
    (hpair : pair.1.toNat < g.mergedBound) :
    Performs sink (isChanged g seed pair) (changedEvents seed) (changed g seed pair) := by
  rw [isChanged, changedEvents, changed]
  cases seed.view with
  | permanent | merged => exact Performs.pure _
  | diffPlus | diffMinus =>
    exact (performs_lookup rfl hpair).map fun list => !list.contains pair.2 seed.filter

/-- What the checks of a seeded prefix do, up to the first that fails. -/
def checkEvents (g : Graph) (t : Tuple) : List Rule → List Event
  | [] => []
  | r :: rest =>
    .looked r.view ::
      if (listAt g t r).contains (vertexAt t 1) r.filter then checkEvents g t rest else []

theorem performs_satisfies (ht : Fits g 2 t) {checks : List Rule}
    (hchecks : ∀ r ∈ checks, r.slot < 2 ∧ r.view.isIndexable = true) :
    Performs sink (satisfies g t checks) (checkEvents g t checks) (passes g checks t) := by
  induction checks with
  | nil => exact Performs.pure _
  | cons r rest ih =>
    have hslot : 1 < t.length := by rw [ht.length]; decide
    refine Performs.bind (performs_slotOf hslot)
      (Performs.bind (performs_ruleList ht (hchecks r List.mem_cons_self)) ?_)
    -- the checks stop at the first that fails, and so does the transcript
    cases hcontains : (listAt g t r).contains (vertexAt t 1) r.filter with
    | true =>
      have hpasses : passes g (r :: rest) t = passes g rest t := by simp [passes, hcontains]
      rw [hpasses]
      exact ih fun r' hr' => hchecks r' (List.mem_cons_of_mem _ hr')
    | false =>
      have hpasses : passes g (r :: rest) t = false := by simp [passes, hcontains]
      rw [hpasses]
      exact Performs.pure _

/-! ## Batches -/

/-- What a stage gives rise to: things done on the way, and prefixes for the next stage. -/
inductive Item where
  | event (e : Event)
  | tuple (t : Tuple)

/-- Collects prefixes into batches and hands on each batch that is full, and what is left
at the end. -/
def batched (size : Nat) (next : List Tuple → List Event) : Array Tuple → List Item → List Event
  | batch, [] => if batch.isEmpty then [] else next batch.toList
  | batch, .event e :: rest => e :: batched size next batch rest
  | batch, .tuple t :: rest =>
    if (batch.push t).size = size then
      next (batch.push t).toList ++ batched size next #[] rest
    else batched size next (batch.push t) rest

/-- Takes in one item. -/
def absorb (sink : TupleSink σ) (size : Nat) (next : List Tuple → Step σ Unit)
    (batch : Array Tuple) : Item → Step σ (Array Tuple)
  | .event e => do
    e.perform sink
    return batch
  | .tuple t => feed size next batch t

variable {size : Nat} {next : List Tuple → Step σ Unit}

theorem foldlM_absorb_events (es : List Event) (items : List Item) (batch : Array Tuple) :
    (es.map Item.event ++ items).foldlM (absorb sink size next) batch =
      play sink es >>= fun _ => items.foldlM (absorb sink size next) batch := by
  induction es with
  | nil => simp [play]
  | cons e rest ih =>
    rw [List.map_cons, List.cons_append, List.foldlM_cons]
    simp only [absorb, play, bind_assoc, pure_bind, ih]

theorem foldlM_flatMap_items {α : Type} {xs : List α} {items : α → List Item}
    {step : Array Tuple → α → Step σ (Array Tuple)}
    (h : ∀ x ∈ xs, ∀ batch, step batch x = (items x).foldlM (absorb sink size next) batch)
    (batch : Array Tuple) :
    xs.foldlM step batch = (xs.flatMap items).foldlM (absorb sink size next) batch := by
  induction xs generalizing batch with
  | nil => rfl
  | cons x rest ih =>
    rw [List.foldlM_cons, List.flatMap_cons, List.foldlM_append, h x List.mem_cons_self]
    exact bind_congr fun b => ih (fun y hy => h y (List.mem_cons_of_mem _ hy)) b

/-- **Batching by transcript**: when the next step follows its transcript on batches of
good prefixes, so does the collecting loop, its last flush included. -/
theorem performs_batched {P : Tuple → Prop} {nextEvents : List Tuple → List Event}
    (hnext : ∀ b, (∀ t ∈ b, P t) → Performs sink (next b) (nextEvents b) ())
    {items : List Item} (hitems : ∀ t, .tuple t ∈ items → P t)
    {batch : Array Tuple} (hbatch : ∀ t ∈ batch.toList, P t) :
    Performs sink (items.foldlM (absorb sink size next) batch >>= flush next)
      (batched size nextEvents batch items) () := by
  induction items generalizing batch with
  | nil =>
    rw [List.foldlM_nil, pure_bind, flush, batched]
    split
    · exact Performs.pure ()
    · exact hnext _ hbatch
  | cons item rest ih =>
    have hrest : ∀ t, .tuple t ∈ rest → P t := fun t ht => hitems t (List.mem_cons_of_mem _ ht)
    rw [List.foldlM_cons, bind_assoc]
    cases item with
    | event e =>
      rw [absorb, bind_assoc]
      refine Performs.bind (Performs.event e) ?_
      rw [pure_bind]
      exact ih hrest hbatch
    | tuple t =>
      have hpush : ∀ t' ∈ (batch.push t).toList, P t' := by
        intro t' ht'
        rw [Array.toList_push, List.mem_append, List.mem_singleton] at ht'
        rcases ht' with ht' | rfl
        · exact hbatch t' ht'
        · exact hitems t' List.mem_cons_self
      rw [absorb, feed, batched]
      split
      · rw [bind_assoc]
        refine Performs.bind (hnext _ hpush) ?_
        rw [pure_bind]
        exact ih hrest (by simp)
      · rw [pure_bind]
        exact ih hrest hpush

/-! ## Stages -/

/-- What the extension of a prefix gives rise to. -/
def stageItems (g : Graph) (stage : Stage) (t : Tuple) : List Item :=
  (extensionEvents g stage t).map .event ++
    (candidatesAt g stage t).1.map fun v => .tuple (t ++ [v])

/-- What the remaining stages do with a batch of prefixes. -/
def transcript (g : Graph) (size : Nat) : List Stage → List Tuple → List Event
  | [], batch => [.worked { tuplesEmitted := batch.length }, .offered batch]
  | stage :: rest, batch =>
    batched size (transcript g size rest) #[] (batch.flatMap (stageItems g stage))

theorem tuple_mem_stageItems {stage : Stage} {t' : Tuple} :
    .tuple t' ∈ stageItems g stage t ↔ ∃ v ∈ (candidatesAt g stage t).1, t' = t ++ [v] := by
  simp [stageItems, eq_comm]

theorem extend_eq_foldlM_absorb (ht : Fits g width t) {stage : Stage}
    (hstage : ∀ r ∈ stage, r.slot < width ∧ r.view.isIndexable = true) (batch : Array Tuple) :
    (extensions g stage t >>= fun vertices =>
      vertices.foldlM (fun out v => feed size next out (t ++ [v])) batch) =
        (stageItems g stage t).foldlM (absorb sink size next) batch := by
  rw [stageItems, foldlM_absorb_events, List.foldlM_map, (performs_extensions ht hstage).bind_eq]
  rfl

/-- A candidate of a fitting prefix makes it a fitting prefix of the next width. -/
theorem Fits.snoc (hg : g.WellFormed) (ht : Fits g width t) {stage : Stage} (hne : stage ≠ [])
    (hview : ∀ r ∈ stage, r.view.isIndexable = true) {v : VertexId}
    (hv : v ∈ (candidatesAt g stage t).1) : Fits g (width + 1) (t ++ [v]) := by
  refine ⟨by rw [List.length_append, ht.length, List.length_singleton], fun w hw => ?_⟩
  rw [List.mem_append, List.mem_singleton] at hw
  rcases hw with hw | rfl
  · exact ht.bounded w hw
  · obtain ⟨r, hr⟩ := List.exists_mem_of_ne_nil stage hne
    exact (hg.lt_of_admits ((mem_candidatesAt hg hne hview).mp hv r hr)).2

theorem performs_dispatch (hg : g.WellFormed) {stages : List Stage}
    (hfit : Plan.LaterFit width stages) {batch : List Tuple}
    (hbatch : ∀ t ∈ batch, Fits g width t) :
    Performs sink (dispatch g size sink stages batch) (transcript g size stages batch) () := by
  induction stages generalizing width batch with
  | nil => exact performs_emit batch
  | cons stage rest ih =>
    obtain ⟨hne, hrules, hrest⟩ := hfit
    have hextend : ∀ t ∈ batch, ∀ out, (extensions g stage t >>= fun vertices =>
        vertices.foldlM (fun out v => feed size (dispatch g size sink rest) out (t ++ [v])) out) =
          (stageItems g stage t).foldlM (absorb sink size (dispatch g size sink rest)) out :=
      fun t ht out => extend_eq_foldlM_absorb (hbatch t ht) hrules out
    rw [dispatch, transcript, foldlM_flatMap_items hextend]
    refine performs_batched (P := Fits g (width + 1)) (fun b hb => ih hrest hb) ?_ (by simp)
    intro t' ht'
    rw [List.mem_flatMap] at ht'
    obtain ⟨t, ht, ht'⟩ := ht'
    obtain ⟨v, hv, rfl⟩ := tuple_mem_stageItems.mp ht'
    exact (hbatch t ht).snoc hg hne (fun r hr => (hrules r hr).2) hv

/-! ## Plans -/

/-- What a seed pair gives rise to. -/
def pairItems (g : Graph) (seed : Rule) (checks : List Rule) (pair : VertexId × VertexId) :
    List Item :=
  (changedEvents seed).map .event ++
    if changed g seed pair then
      (checkEvents g (seedPrefix seed.direction pair) checks).map .event ++
        if passes g checks (seedPrefix seed.direction pair) then
          [.tuple (seedPrefix seed.direction pair)]
        else []
    else []

/-- What the execution of a plan does. -/
def planEvents (g : Graph) (size : Nat) (p : Plan) : List Event :=
  match p.stages with
  | (seed :: checks) :: rest =>
    .worked { seedsScanned := (seedEdges g seed).length } ::
      batched size (transcript g size rest) #[]
        ((distinctPairs seed.view (seedEdges g seed)).flatMap (pairItems g seed checks))
  | _ => []

theorem tuple_mem_pairItems {seed : Rule} {checks : List Rule} {pair : VertexId × VertexId} :
    .tuple t ∈ pairItems g seed checks pair → t = seedPrefix seed.direction pair := by
  unfold pairItems
  split
  · split <;> simp
  · simp

theorem seed_eq_foldlM_absorb {seed : Rule} {checks : List Rule} {pair : VertexId × VertexId}
    (hpair : pair.1.toNat < g.mergedBound) (ht : Fits g 2 (seedPrefix seed.direction pair))
    (hchecks : ∀ r ∈ checks, r.slot < 2 ∧ r.view.isIndexable = true) (batch : Array Tuple) :
    (isChanged g seed pair >>= fun holds =>
      if holds then
        satisfies g (seedPrefix seed.direction pair) checks >>= fun good =>
          if good then feed size next batch (seedPrefix seed.direction pair) else pure batch
      else pure batch) =
        (pairItems g seed checks pair).foldlM (absorb sink size next) batch := by
  rw [pairItems, foldlM_absorb_events, (performs_isChanged hpair).bind_eq]
  refine bind_congr fun _ => ?_
  cases changed g seed pair with
  | false => rfl
  | true =>
    simp only [if_true]
    rw [foldlM_absorb_events, (performs_satisfies ht hchecks).bind_eq]
    refine bind_congr fun _ => ?_
    cases passes g checks (seedPrefix seed.direction pair) with
    | false => rfl
    | true => simp [absorb]

/-- The endpoints of the enumerated edges are vertices. -/
theorem lt_of_mem_seedEdges (hg : g.WellFormed) {seed : Rule} {pair : VertexId × VertexId}
    (hpair : pair ∈ (seedEdges g seed).map Edge.pair) :
    pair.1.toNat < g.mergedBound ∧ pair.2.toNat < g.mergedBound := by
  obtain ⟨u, v⟩ := pair
  obtain ⟨label, -, he⟩ := mem_map_pair_seedEdges.mp hpair
  have hhas : ∃ view, g.Has view ⟨u, v, label⟩ := by
    rw [hg.mem_allEdges] at he
    cases hview : seed.view with
    | permanent | merged =>
      rw [hview] at he
      exact ⟨_, he⟩
    | diffPlus | diffMinus =>
      rw [hview] at he
      exact ⟨_, he.1⟩
  obtain ⟨view, hhas⟩ := hhas
  exact ⟨hg.lt_mergedBound hhas .forward, hg.lt_mergedBound hhas .backward⟩

theorem fits_seedPrefix {pair : VertexId × VertexId} (d : Direction)
    (hpair : pair.1.toNat < g.mergedBound ∧ pair.2.toNat < g.mergedBound) :
    Fits g 2 (seedPrefix d pair) := by
  obtain ⟨u, v⟩ := pair
  obtain ⟨hu, hv⟩ := hpair
  cases d <;> exact ⟨rfl, by simp [seedPrefix, hu, hv]⟩

/-- Without room for a batch a run of a valid plan ends before it has begun. -/
theorem run_of_overflow {p : Plan} (hp : p.Valid) (hsize : batchLimit < size) :
    run g p size sink = throw .batchTooLarge := by
  have hfault := Plan.fault?_eq_none_iff.mpr hp
  cases hp with
  | intro =>
    rw [run, hfault]
    exact if_pos hsize

/-- **A valid plan follows its transcript**, whatever the sink does with the batches. -/
theorem run_eq_play (hg : g.WellFormed) {p : Plan} (hp : p.Valid) (hsize : size ≤ batchLimit) :
    run g p size sink = play sink (planEvents g size p) := by
  have hfault := Plan.fault?_eq_none_iff.mpr hp
  cases hp with
  | @intro seed checks rest hslot hchecks hrest =>
    -- every lookup is for an endpoint of an edge, which is a vertex, so none fails
    have hpairs : ∀ pair ∈ distinctPairs seed.view (seedEdges g seed),
        pair.1.toNat < g.mergedBound ∧ pair.2.toNat < g.mergedBound :=
      fun pair hpair => lt_of_mem_seedEdges hg (mem_distinctPairs.mp hpair)
    have hslots : ∀ r ∈ checks, r.slot < 2 ∧ r.view.isIndexable = true := fun r hr =>
      ⟨by rw [(hchecks r hr).1]; decide, (hchecks r hr).2⟩
    have hseed := fun pair hpair (out : Array Tuple) =>
      @seed_eq_foldlM_absorb σ sink g size (dispatch g size sink rest) seed checks pair
        (hpairs pair hpair).1 (fits_seedPrefix seed.direction (hpairs pair hpair)) hslots out
    have hrun : run g ⟨(seed :: checks) :: rest⟩ size sink =
        runSeeds g size sink seed checks rest := by
      rw [run, hfault]
      exact if_neg (Nat.not_lt.mpr hsize)
    rw [hrun, runSeeds, foldlM_flatMap_items hseed]
    have hscan := @performs_work σ sink { seedsScanned := (seedEdges g seed).length }
    refine Performs.eq_play (Performs.bind hscan ?_)
    refine performs_batched (P := Fits g 2) (fun b hb => performs_dispatch hg hrest hb) ?_ (by simp)
    intro t ht
    rw [List.mem_flatMap] at ht
    obtain ⟨pair, hpair, ht⟩ := ht
    rw [tuple_mem_pairItems ht]
    exact fits_seedPrefix seed.direction (hpairs pair hpair)

end Join
end DeltaMatch
