import DeltaMatch.Proofs.Observation

/-!
# Isolation, publication and rollback

Pending edits are invisible to whoever reads the permanent view. A commit shows there what
the merged view showed before, and shows the merged view nothing new. A discard brings back
the graph of the last commit: from then on it answers as if the edits had not been made.
-/

namespace DeltaMatch
namespace Graph

variable {g g' start : Graph} {ops : List Op} {op : Op}

/-! ## Requests between commits -/

theorem permanentBound_step (hop : op ≠ .commit) :
    (g.step op).permanentBound = g.permanentBound := by
  cases op with
  | add | delete => exact (edit_step rfl).1.bound
  | label v l =>
    obtain ⟨labels, heq⟩ := step_label g v l
    rw [heq]
  | commit => exact absurd rfl hop
  | discard => rfl

/-- **Between commits the committed lists and their bound stay.** -/
theorem committed_run (hops : ∀ op ∈ ops, op ≠ .commit) :
    (∀ d v, (ops.foldl step g).list .permanent d v = g.list .permanent d v) ∧
      (ops.foldl step g).permanentBound = g.permanentBound := by
  induction ops generalizing g with
  | nil => exact ⟨fun _ _ => rfl, rfl⟩
  | cons op rest ih =>
    obtain ⟨hop, hrest⟩ := List.forall_mem_cons.mp hops
    obtain ⟨hlists, hbound⟩ := ih (g := g.step op) hrest
    exact ⟨fun d v => (hlists d v).trans (list_permanent_step hop d v),
      hbound.trans (permanentBound_step hop)⟩

/-- What a vertex is labelled does not depend on the edges. -/
theorem vertexLabels_step_congr (h : g.vertexLabels = g'.vertexLabels) (v : VertexId) (l : Label) :
    (g.step (.label v l)).vertexLabels = (g'.step (.label v l)).vertexLabels := by
  rw [step, step, setVertexLabel, setVertexLabel, h]
  cases l.isAny with
  | true => exact h
  | false => rfl

/-- **Labels are what the labelling requests make them**, whatever lies between. -/
theorem vertexLabels_run (h : g.vertexLabels = g'.vertexLabels) :
    (ops.foldl step g).vertexLabels = ((ops.filter Op.isLabel).foldl step g').vertexLabels := by
  induction ops generalizing g g' with
  | nil => exact h
  | cons op rest ih =>
    cases hop : op.isLabel with
    | false =>
      rw [List.filter_cons_of_neg (by simp [hop]), List.foldl_cons]
      exact ih ((vertexLabels_step hop).trans h)
    | true =>
      rw [List.filter_cons_of_pos hop, List.foldl_cons, List.foldl_cons]
      cases op with
      | label v l => exact ih (vertexLabels_step_congr h v l)
      | add | delete | commit | discard => cases hop

/-- Labelling requests alone change nothing but labels. -/
theorem relabel_run (hops : ∀ op ∈ ops, op.isLabel = true) :
    ∃ labels, ops.foldl step g = { g with vertexLabels := labels } := by
  induction ops generalizing g with
  | nil => exact ⟨_, rfl⟩
  | cons op rest ih =>
    obtain ⟨hop, hrest⟩ := List.forall_mem_cons.mp hops
    cases op with
    | label v l =>
      obtain ⟨labels, heq⟩ := step_label g v l
      obtain ⟨labels', heq'⟩ := ih (g := { g with vertexLabels := labels }) hrest
      rw [List.foldl_cons, heq]
      exact ⟨labels', heq'⟩
    | add | delete | commit | discard => cases hop

/-! ## Isolation -/

/-- The second graph shows in the permanent view what the first one does. -/
structure SamePermanent (g g' : Graph) : Prop where
  lists : ∀ d v, g'.list .permanent d v = g.list .permanent d v
  /-- A lookup that succeeds goes on to do so, with the same list. -/
  lookups : ∀ v d list, g.neighbours v d .permanent = .ok list →
    g'.neighbours v d .permanent = .ok list
  /-- A lookup that only now succeeds is for a vertex without committed neighbours. -/
  new_lookups : ∀ v d list, g'.neighbours v d .permanent = .ok list →
    g.neighbours v d .permanent = .ok list ∨ list = .empty
  edges : ∀ d filter, g'.edges .permanent d filter = g.edges .permanent d filter
  vertexCount : g'.vertexCount .permanent = g.vertexCount .permanent
  edgeCount : g'.edgeCount = g.edgeCount
  snapshot : g'.snapshot = g.snapshot
  /-- Result, batches, work and lookups of the plans that read nothing else. -/
  execute : ∀ {σ : Type} (p : Plan), (∀ stage ∈ p.stages, ∀ r ∈ stage, r.view = .permanent) →
    ∀ (batchSize : Nat) (sink : TupleSink σ) (s : σ),
      p.execute g' batchSize sink s = p.execute g batchSize sink s

theorem SameCommitted.sameView (h : SameCommitted g g') : g'.SameView g .permanent :=
  .of_lists rfl h.bound h.list_eq

/-- A snapshot is an image of the committed state. -/
theorem SameCommitted.snapshot_eq (h : SameCommitted g g') : g'.snapshot = g.snapshot := by
  rw [snapshot, snapshot, h.bound, h.labels, h.sameView.edges]

/-- Where the committed state is the same, so is all that the permanent view shows. -/
theorem SameCommitted.samePermanent (h : SameCommitted g g') (hg : g.WellFormed)
    (hg' : g'.WellFormed) (hle : g.mergedBound ≤ g'.mergedBound) : SamePermanent g g' where
  lists := h.list_eq
  lookups := fun v d list hlookup => by
    rw [WellFormed.neighbours_eq_ok_iff rfl] at hlookup ⊢
    exact ⟨Nat.lt_of_lt_of_le hlookup.1 hle, by rw [h.list_eq, hlookup.2]⟩
  new_lookups := fun v d list hlookup => by
    rw [WellFormed.neighbours_eq_ok_iff rfl, h.list_eq] at hlookup
    rw [WellFormed.neighbours_eq_ok_iff rfl]
    by_cases hv : v.toNat < g.mergedBound
    · exact Or.inl ⟨hv, hlookup.2⟩
    · refine Or.inr (hlookup.2.symm.trans (hg.list_of_le ?_))
      exact Nat.le_trans hg.bounds (Nat.not_lt.mp hv)
  edges := h.sameView.edges_eq h.labels
  vertexCount := h.bound
  edgeCount := by
    have hcommitted : g'.forward.committed = g.forward.committed := h.committed .forward
    rw [edgeCount, edgeCount, hcommitted]
  snapshot := h.snapshot_eq
  execute := fun p hp => p.execute_congr hg' hg (.of_view rfl hp h.sameView)

/-! ## Publication -/

/-- The second graph shows in both states what the merged view of the first one shows. -/
structure Publishes (g g' : Graph) : Prop where
  permanent : ∀ d v, g'.list .permanent d v = g.list .merged d v
  merged : ∀ d v, g'.list .merged d v = g.list .merged d v
  lookups : ∀ v d, g'.neighbours v d .merged = g.neighbours v d .merged
  edges : ∀ d filter, g'.edges .merged d filter = g.edges .merged d filter
  vertexCount : g'.vertexCount .merged = g.vertexCount .merged
  /-- Result, batches, work and lookups of the plans that read the merged view alone. -/
  execute : ∀ {σ : Type} (p : Plan), (∀ stage ∈ p.stages, ∀ r ∈ stage, r.view = .merged) →
    ∀ (batchSize : Nat) (sink : TupleSink σ) (s : σ),
      p.execute g' batchSize sink s = p.execute g batchSize sink s

theorem WellFormed.sameView_commit (h : g.WellFormed) : g.commit.1.SameView g .merged :=
  .of_lists rfl (h.vertexCount_commit .merged) (h.list_commit .merged)

theorem WellFormed.publishes_commit (h : g.WellFormed) : Publishes g g.commit.1 where
  permanent := h.list_commit .permanent
  merged := h.list_commit .merged
  lookups := fun v d => by
    have hcount : g.commit.1.mergedBound = g.mergedBound := h.vertexCount_commit .merged
    rw [neighbours, neighbours, hcount, h.list_commit]
  edges := h.sameView_commit.edges_eq (vertexLabels_commit g)
  vertexCount := h.vertexCount_commit .merged
  execute := fun p hp => p.execute_congr (h.step .commit) h (.of_view rfl hp h.sameView_commit)

/-! ## Rollback -/

/-- The second graph is the first one again, but for the labels that the requests gave. -/
structure RollsBack (start : Graph) (ops : List Op) (g : Graph) : Prop where
  lists : ∀ view d v, g.list view d v = start.list view d v
  vertexCount : ∀ view, g.vertexCount view = start.vertexCount view
  plus : g.diffPlus.toList = start.diffPlus.toList
  minus : g.diffMinus.toList = start.diffMinus.toList
  /-- From here on everything goes as if nothing but the labels had been asked for. -/
  later : Indistinguishable g ((ops.filter Op.isLabel).foldl step start)

theorem Idle.rollsBack_discard (hidle : start.Idle) (hstart : start.WellFormed)
    (hops : ∀ op ∈ ops, op ≠ .commit) : RollsBack start ops (ops.foldl step start).discard.1 := by
  obtain ⟨hlists, hbound⟩ := committed_run (g := start) hops
  have hdiscard : (ops.foldl step start).discard.1.Idle := .discard _
  refine ⟨fun view d v => ?_, fun view => ?_, ?_, ?_, ?_⟩
  · rw [list_discard, hlists, hidle.list_eq view]
  · rw [hdiscard.vertexCount_eq, hidle.vertexCount_eq]
    exact hbound
  · rw [hdiscard.plus, hidle.plus]
  · rw [hdiscard.minus, hidle.minus]
  · have hlabels : (ops.foldl step start).vertexLabels =
        ((ops.filter Op.isLabel).foldl step start).vertexLabels := vertexLabels_run rfl
    have hlabelling : ∀ op ∈ ops.filter Op.isLabel, op.isLabel = true :=
      fun op hop => (List.mem_filter.mp hop).2
    obtain ⟨labels, heq⟩ := relabel_run (g := start) hlabelling
    rw [heq] at hlabels ⊢
    refine (Alike.of_idle (hstart.foldl ops).discard (hstart.relabel labels) hdiscard
      (hidle.relabel labels) (fun d v => ?_) hbound hlabels).indistinguishable
    rw [list_discard, hlists]
    cases d <;> rfl

/-! ## All three -/

/-- **Isolation, publication and rollback.** In every reachable graph, edits leave alone
whatever the permanent view shows, and a commit shows there what the merged view showed. A
discard brings back the graph of the last commit, or of the start, and all that follows goes
as if only the labels had been asked for since then; every reachable graph has come about by
requests since such a moment. -/
theorem isolated_published_rolled_back :
    (∀ (g : Graph) (ops : List Op), g.Reachable → (∀ op ∈ ops, op.isEdit = true) →
      SamePermanent g (ops.foldl step g)) ∧
    (∀ g : Graph, g.Reachable → Publishes g g.commit.1) ∧
    (∀ (start : Graph) (ops : List Op), start.Settled → (∀ op ∈ ops, op ≠ .commit) →
      RollsBack start ops (ops.foldl step start).discard.1) ∧
    ∀ g : Graph, g.Reachable → ∃ (start : Graph) (ops : List Op),
      start.Settled ∧ (∀ op ∈ ops, op ≠ .commit) ∧ g = ops.foldl step start := by
  refine ⟨fun g ops hg hops => ?_, fun g hg => hg.wellFormed.publishes_commit,
    fun start ops hstart hops => ?_, fun g hg => hg.exists_settled⟩
  · obtain ⟨hsame, hle⟩ := edit_run (g := g) hops
    exact hsame.samePermanent hg.wellFormed (hg.wellFormed.foldl ops) hle
  · exact hstart.idle.rollsBack_discard hstart.reachable.wellFormed hops

/-- The only committed edge is deleted, an edge to a new vertex is added and a vertex
labelled. -/
theorem isolated_published_rolled_back_edits :
    let committed := ([.add ⟨0, 1, ⟨2⟩⟩, .commit] : List Op).foldl step .empty
    let edits : List Op := [.delete ⟨0, 1, ⟨2⟩⟩, .add ⟨7, 0, ⟨2⟩⟩, .add ⟨7, 0, .any⟩]
    let requests : List Op := .label 1 ⟨3⟩ :: edits
    SamePermanent committed (edits.foldl step committed) ∧
      Publishes (edits.foldl step committed) (edits.foldl step committed).commit.1 ∧
      RollsBack committed requests (requests.foldl step committed).discard.1 := by
  intro committed edits requests
  obtain ⟨hisolated, hpublished, hrolledBack, -⟩ := isolated_published_rolled_back
  have hempty : Reachable .empty := .origin .empty
  have hcommitted : committed.Reachable := hempty.foldl _
  exact ⟨hisolated _ _ hcommitted (by decide), hpublished _ (hcommitted.foldl edits),
    hrolledBack _ _ (.commit (hempty.step (.add ⟨0, 1, ⟨2⟩⟩))) (by decide)⟩

end Graph
end DeltaMatch
