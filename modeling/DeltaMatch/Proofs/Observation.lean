import DeltaMatch.Proofs.Graph.Counters
import DeltaMatch.Proofs.Graph.Likeness
import DeltaMatch.Proofs.Join.Reads
import DeltaMatch.StandingQueries

/-!
# What can be asked of a graph

A graph is asked for its lists, its edges, its sizes and labels; it answers requests; and
plans, patterns and standing queries are evaluated on it. Graphs are indistinguishable when
all of this comes out the same on them, now and after any further requests.
-/

namespace DeltaMatch
namespace Graph

/-- Whatever is asked of the graphs is answered alike. -/
structure SameAnswers (g g' : Graph) : Prop where
  neighbours : ∀ v d view, g.neighbours v d view = g'.neighbours v d view
  edges : ∀ view d filter, g.edges view d filter = g'.edges view d filter
  plus : g.diffPlus.SameAnswers g'.diffPlus
  minus : g.diffMinus.SameAnswers g'.diffMinus
  vertexCount : ∀ view, g.vertexCount view = g'.vertexCount view
  edgeCount : g.edgeCount = g'.edgeCount
  vertexLabel : ∀ v, g.vertexLabel v = g'.vertexLabel v
  hasPending : g.hasPending = g'.hasPending
  snapshot : g.snapshot = g'.snapshot
  describe : g.describe = g'.describe
  add : ∀ e, (g.add e).map Prod.snd = (g'.add e).map Prod.snd
  delete : ∀ e, (g.delete e).map Prod.snd = (g'.delete e).map Prod.snd
  setVertexLabel : ∀ v l, (g.setVertexLabel v l).map (fun _ => ()) =
    (g'.setVertexLabel v l).map fun _ => ()
  commit : g.commit.2 = g'.commit.2
  discard : g.discard.2 = g'.discard.2
  /-- Result, batches, work and lookups of every plan. -/
  execute : ∀ {σ : Type} (p : Plan) (batchSize : Nat) (sink : TupleSink σ) (s : σ),
    p.execute g batchSize sink s = p.execute g' batchSize sink s
  executeDelta : ∀ {σ : Type} (p : Pattern) (batchSize : Nat) (sink : ChangeSink σ) (s : σ),
    p.executeDelta g batchSize sink s = p.executeDelta g' batchSize sink s
  apply : ∀ {σ : Type} (q : StandingQueries σ) (sink : ChangeSink σ) (k : Option Counters),
    (q.apply sink ⟨g, k⟩).result = (q.apply sink ⟨g', k⟩).result ∧
      (q.apply sink ⟨g, k⟩).registry = (q.apply sink ⟨g', k⟩).registry

/-- Whatever is asked of the graphs after the same requests is answered alike. -/
def Indistinguishable (g g' : Graph) : Prop :=
  ∀ ops : List Op, SameAnswers (ops.foldl step g) (ops.foldl step g')

end Graph

namespace Graph.Alike

variable {g g' : Graph}

/-! ## Lists and logs -/

theorem listedEdges_eq (h : Alike g g') (view : View) (d : Direction) :
    g.listedEdges view d = g'.listedEdges view d := by
  simp only [listedEdges, h.vertexCount_eq, h.lists]

theorem sameView (h : Alike g g') (view : View) : g.SameView g' view := by
  refine ⟨h.lists view, fun d => ?_⟩
  cases view with
  | permanent | merged => exact h.listedEdges_eq _ d
  | diffPlus => exact h.plus
  | diffMinus => exact h.minus

theorem neighbours_eq (h : Alike g g') (v : VertexId) (d : Direction) (view : View) :
    g.neighbours v d view = g'.neighbours v d view := by
  rw [neighbours, neighbours, h.mergedBound, h.lists]

theorem edgeCount_eq (h : Alike g g') : g.edgeCount = g'.edgeCount := by
  have hcommitted : g.forward.committed = g'.forward.committed := h.committed_eq .forward
  rw [edgeCount, edgeCount, hcommitted]

theorem snapshot_eq (h : Alike g g') : g.snapshot = g'.snapshot := by
  rw [snapshot, snapshot, h.permanentBound, h.labels, (h.sameView .permanent).edges]

theorem describe_eq (h : Alike g g') : g.describe = g'.describe := by
  have hforward : g.forward.overlay.size = g'.forward.overlay.size := h.size_overlay_eq .forward
  have hbackward : g.backward.overlay.size = g'.backward.overlay.size := h.size_overlay_eq .backward
  unfold describe
  rw [h.permanentBound, h.mergedBound, h.samePlus.size, h.sameMinus.size, hforward, hbackward]

/-! ## Executions -/

theorem execute_eq {σ : Type} (h : Alike g g') (p : Plan) (batchSize : Nat) (sink : TupleSink σ)
    (s : σ) : p.execute g batchSize sink s = p.execute g' batchSize sink s :=
  p.execute_congr h.wellFormed h.wellFormed' (fun _ _ _ _ view _ => h.sameView view) batchSize
    sink s

theorem runPlans_eq (h : Alike g g') (size : Nat) (sign : Int) (plans : List OrderedPlan)
    (p : DeltaJoin.Progress) :
    DeltaJoin.runPlans g size sign plans p = DeltaJoin.runPlans g' size sign plans p := by
  induction plans generalizing p with
  | nil => rfl
  | cons plan rest ih =>
    rw [DeltaJoin.runPlans, DeltaJoin.runPlans, h.execute_eq]
    simp only [ih]

theorem runDiff_eq (h : Alike g g') (pattern : Pattern) (size : Nat) (diff : View) (sign : Int)
    (p : DeltaJoin.Progress) :
    DeltaJoin.runDiff g pattern size diff sign p =
      DeltaJoin.runDiff g' pattern size diff sign p := by
  rw [DeltaJoin.runDiff, DeltaJoin.runDiff]
  cases diff with
  | permanent | merged => rfl
  | diffPlus => simp only [Graph.diff, h.samePlus.isEmpty, h.runPlans_eq]
  | diffMinus => simp only [Graph.diff, h.sameMinus.isEmpty, h.runPlans_eq]

theorem executeDelta_eq {σ : Type} (h : Alike g g') (pattern : Pattern) (batchSize : Nat)
    (sink : ChangeSink σ) (s : σ) :
    pattern.executeDelta g batchSize sink s = pattern.executeDelta g' batchSize sink s := by
  have hdiffs : DeltaJoin.runDiffs g pattern batchSize =
      DeltaJoin.runDiffs g' pattern batchSize := by
    simp only [DeltaJoin.runDiffs, h.runDiff_eq]
  rw [Pattern.executeDelta, Pattern.executeDelta, hdiffs]

/-! ## Standing queries -/

theorem deltas_eq {σ : Type} (h : Alike g g') (batchSize : Nat)
    (registrations : List (Registration σ)) :
    StandingQueries.deltas g batchSize registrations =
      StandingQueries.deltas g' batchSize registrations := by
  induction registrations with
  | nil => rfl
  | cons r rest ih => rw [StandingQueries.deltas, StandingQueries.deltas, h.executeDelta_eq, ih]

theorem apply_eq {σ : Type} (h : Alike g g') (q : StandingQueries σ) (sink : ChangeSink σ)
    (k : Option Counters) :
    (q.apply sink ⟨g, k⟩).result = (q.apply sink ⟨g', k⟩).result ∧
      (q.apply sink ⟨g, k⟩).registry = (q.apply sink ⟨g', k⟩).registry := by
  rw [StandingQueries.apply, StandingQueries.apply]
  simp only [h.hasPending_eq, h.deltas_eq, CountedGraph.recordLookups, CountedGraph.count]
  generalize (if g'.hasPending = true then q.registrations else []) = due
  cases (StandingQueries.deltas g' q.batchSize due).1 with
  | error e => exact ⟨rfl, rfl⟩
  | ok changes =>
    simp only [CountedGraph.snd_commit, h.commit.2]
    exact ⟨trivial, trivial⟩

/-! ## All answers -/

/-- **Alike graphs answer alike.** -/
theorem sameAnswers (h : Alike g g') : SameAnswers g g' where
  neighbours := h.neighbours_eq
  edges := fun view => (h.sameView view).edges_eq h.labels
  plus := h.samePlus
  minus := h.sameMinus
  vertexCount := h.vertexCount_eq
  edgeCount := h.edgeCount_eq
  vertexLabel := fun v => by rw [vertexLabel, vertexLabel, h.labels]
  hasPending := h.hasPending_eq
  snapshot := h.snapshot_eq
  describe := h.describe_eq
  add := fun e => (h.add e).answer
  delete := fun e => (h.delete e).answer
  setVertexLabel := fun v l => by
    rcases h.setVertexLabel v l with ⟨err, hl, hl'⟩ | ⟨labels, hl, hl'⟩
    · rw [hl, hl']
    · rw [hl, hl']
      rfl
  commit := h.commit.2
  discard := h.discard.2
  execute := h.execute_eq
  executeDelta := h.executeDelta_eq
  apply := h.apply_eq

/-- **Alike graphs cannot be told apart**, whatever requests follow. -/
theorem indistinguishable (h : Alike g g') : Indistinguishable g g' :=
  fun ops => (h.foldl ops).sameAnswers

end Graph.Alike
end DeltaMatch
