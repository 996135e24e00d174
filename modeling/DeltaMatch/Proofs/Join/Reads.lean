import DeltaMatch.Proofs.Join.Transcript

/-!
# What an execution reads

A plan reads the views of its rules and, where its seed reads a log, the state on the
other side of the log. Graphs that agree on these views cannot be told apart by executing
the plan: it offers the same batches, fails alike and counts the same work and the same
lookups.
-/

namespace DeltaMatch

/-- The views that a rule consults: the pairs of a log are checked against a state. -/
def View.consulted : View → List View
  | .permanent => [.permanent]
  | .merged => [.merged]
  | .diffPlus => [.diffPlus, .permanent]
  | .diffMinus => [.diffMinus, .merged]

theorem View.mem_consulted_self (view : View) : view ∈ view.consulted := by
  cases view <;> exact List.mem_cons_self

/-- Reading the view does not tell the graphs apart. -/
structure Graph.SameView (g g' : Graph) (view : View) : Prop where
  lists : ∀ d v, g.list view d v = g'.list view d v
  edges : ∀ d, g.allEdges view d = g'.allEdges view d

namespace Graph.SameView

variable {g g' : Graph} {view : View}

/-- The edges of a state are those of its lists. -/
theorem of_lists (hview : view.isIndexable = true)
    (hcount : g.vertexCount view = g'.vertexCount view)
    (hlists : ∀ d v, g.list view d v = g'.list view d v) : g.SameView g' view := by
  have hlisted : ∀ d, g.listedEdges view d = g'.listedEdges view d := fun d => by
    simp only [listedEdges, hcount, hlists]
  refine ⟨hlists, fun d => ?_⟩
  cases view with
  | permanent | merged => exact hlisted d
  | diffPlus | diffMinus => cases hview

/-- Under the same labels a filter selects the same edges. -/
theorem edges_eq (h : g.SameView g' view) (hlabels : g.vertexLabels = g'.vertexLabels)
    (d : Direction) (filter : EdgeFilter) : g.edges view d filter = g'.edges view d filter := by
  have hpasses : g.passes filter = g'.passes filter := by
    funext e
    rw [passes, passes, vertexLabel, vertexLabel, vertexLabel, vertexLabel, hlabels]
  rw [Graph.edges_eq, Graph.edges_eq, h.edges, hpasses]

end Graph.SameView

/-- The graphs agree on all that the rules of the plan consult. -/
def Plan.SameReads (p : Plan) (g g' : Graph) : Prop :=
  ∀ stage ∈ p.stages, ∀ r ∈ stage, ∀ view ∈ r.view.consulted, g.SameView g' view

/-- A plan whose rules all read one state reads nothing else. -/
theorem Plan.SameReads.of_view {p : Plan} {g g' : Graph} {view : View}
    (hview : view.isIndexable = true) (hrules : ∀ stage ∈ p.stages, ∀ r ∈ stage, r.view = view)
    (h : g.SameView g' view) : p.SameReads g g' := by
  intro stage hstage r hr view' hview'
  rw [hrules stage hstage r hr] at hview'
  cases view with
  | permanent | merged => rwa [List.mem_singleton.mp hview']
  | diffPlus | diffMinus => cases hview

namespace Join

variable {g g' : Graph} {size : Nat}

/-! ## Stages -/

theorem listAt_congr {r : Rule} (h : g.SameView g' r.view) (t : Tuple) :
    listAt g t r = listAt g' t r := h.lists r.direction _

theorem stageItems_congr {stage : Stage} (h : ∀ r ∈ stage, g.SameView g' r.view) (t : Tuple) :
    stageItems g stage t = stageItems g' stage t := by
  have hcandidates : candidatesAt g stage t = candidatesAt g' stage t := by
    rw [candidatesAt, candidatesAt, List.map_congr_left fun r hr => listAt_congr (h r hr) t]
  rw [stageItems, stageItems, extensionEvents, extensionEvents, hcandidates]

theorem transcript_congr {stages : List Stage}
    (h : ∀ stage ∈ stages, ∀ r ∈ stage, g.SameView g' r.view) :
    transcript g size stages = transcript g' size stages := by
  induction stages with
  | nil => rfl
  | cons stage rest ih =>
    obtain ⟨hstage, hrest⟩ := List.forall_mem_cons.mp h
    funext batch
    rw [transcript, transcript, ih hrest, funext (stageItems_congr hstage)]

/-! ## Seeds -/

theorem seedEdges_congr {seed : Rule} (h : g.SameView g' seed.view) :
    seedEdges g seed = seedEdges g' seed := by
  rw [seedEdges, seedEdges, Graph.edges_eq, Graph.edges_eq, h.edges seed.direction]
  refine List.filter_congr fun e _ => ?_
  simp [Graph.passes, EdgeFilter.onLabel, EdgeFilter.all]

theorem changed_congr {seed : Rule} (h : ∀ view ∈ seed.view.consulted, g.SameView g' view)
    (pair : VertexId × VertexId) : changed g seed pair = changed g' seed pair := by
  rw [changed, changed]
  cases hview : seed.view with
  | permanent | merged => rfl
  | diffPlus | diffMinus =>
    rw [hview] at h
    simp only [(h _ (List.mem_cons_of_mem _ List.mem_cons_self)).lists]

theorem checkEvents_congr {checks : List Rule} (h : ∀ r ∈ checks, g.SameView g' r.view)
    (t : Tuple) : checkEvents g t checks = checkEvents g' t checks := by
  induction checks with
  | nil => rfl
  | cons r rest ih =>
    obtain ⟨hr, hrest⟩ := List.forall_mem_cons.mp h
    rw [checkEvents, checkEvents, listAt_congr hr, ih hrest]

theorem passes_congr {checks : List Rule} (h : ∀ r ∈ checks, g.SameView g' r.view) (t : Tuple) :
    passes g checks t = passes g' checks t := by
  induction checks with
  | nil => rfl
  | cons r rest ih =>
    obtain ⟨hr, hrest⟩ := List.forall_mem_cons.mp h
    have ih := ih hrest
    rw [passes] at ih ⊢
    rw [passes, List.all_cons, List.all_cons, listAt_congr hr, ih, passes]

theorem pairItems_congr {seed : Rule} {checks : List Rule}
    (hseed : ∀ view ∈ seed.view.consulted, g.SameView g' view)
    (hchecks : ∀ r ∈ checks, g.SameView g' r.view) (pair : VertexId × VertexId) :
    pairItems g seed checks pair = pairItems g' seed checks pair := by
  rw [pairItems, pairItems, changed_congr hseed, checkEvents_congr hchecks, passes_congr hchecks]

/-- **The transcript of a plan depends on what the plan reads**, and on nothing else. -/
theorem planEvents_congr {p : Plan} (h : p.SameReads g g') :
    planEvents g size p = planEvents g' size p := by
  obtain ⟨_ | ⟨_ | ⟨seed, checks⟩, rest⟩⟩ := p
  · rfl
  · rfl
  · obtain ⟨hfirst, hrest⟩ := List.forall_mem_cons.mp h
    obtain ⟨hseed, hchecks⟩ := List.forall_mem_cons.mp hfirst
    have hchecks : ∀ r ∈ checks, g.SameView g' r.view :=
      fun r hr => hchecks r hr _ r.view.mem_consulted_self
    have hrest : ∀ stage ∈ rest, ∀ r ∈ stage, g.SameView g' r.view :=
      fun stage hstage r hr => hrest stage hstage r hr _ r.view.mem_consulted_self
    simp only [planEvents, seedEdges_congr (hseed _ seed.view.mem_consulted_self),
      transcript_congr hrest, funext (pairItems_congr hseed hchecks)]

end Join

/-- **An execution depends on what the plan reads.** On graphs that agree on it, every plan
leaves the same behind, also one that is turned down or that the sink ends early. -/
theorem Plan.execute_congr {σ : Type} {p : Plan} {g g' : Graph} (hg : g.WellFormed)
    (hg' : g'.WellFormed) (h : p.SameReads g g') (batchSize : Nat) (sink : TupleSink σ) (s : σ) :
    p.execute g batchSize sink s = p.execute g' batchSize sink s := by
  have hrun : Join.run g p (batchSizeOf batchSize) sink =
      Join.run g' p (batchSizeOf batchSize) sink := by
    cases hfault : p.fault? with
    | some fault => simp only [Join.run, hfault]
    | none =>
      have hp := Plan.fault?_eq_none_iff.mp hfault
      rcases Nat.lt_or_ge batchLimit (batchSizeOf batchSize) with hsize | hsize
      · rw [Join.run_of_overflow hp hsize, Join.run_of_overflow hp hsize]
      · rw [Join.run_eq_play hg hp hsize, Join.run_eq_play hg' hp hsize, Join.planEvents_congr h]
  rw [Plan.execute, Plan.execute, hrun]

end DeltaMatch
