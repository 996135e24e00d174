import DeltaMatch.Proofs.Graph.Invariant
import DeltaMatch.Proofs.Results

/-!
# Reachable graphs

A graph is built empty, loaded or restored, and changed by five operations from then
on. Each operation is total here: a request that is turned down leaves the graph as it
was. Every graph that comes about is consistent.
-/

namespace DeltaMatch
namespace Graph

/-- The graphs that a history starts from. -/
inductive Origin : Graph → Prop
  | empty : Origin .empty
  | load {vertexCount : Nat} {edges : List Edge} {g : Graph} :
      Graph.load vertexCount edges = .ok g → Origin g
  | restore {s : Snapshot} {g : Graph} : Graph.restore s = .ok g → Origin g

/-- The requests that change a graph. -/
inductive Op where
  | add (e : Edge)
  | delete (e : Edge)
  | label (v : VertexId) (l : Label)
  | commit
  | discard
  deriving DecidableEq

/-- The graph after a request. -/
def step (g : Graph) : Op → Graph
  | .add e => match g.add e with
    | .ok (g', _) => g'
    | .error _ => g
  | .delete e => match g.delete e with
    | .ok (g', _) => g'
    | .error _ => g
  | .label v l => match g.setVertexLabel v l with
    | .ok g' => g'
    | .error _ => g
  | .commit => g.commit.1
  | .discard => g.discard.1

/-- The graphs that some history leads to. -/
inductive Reachable : Graph → Prop
  | origin {g : Graph} : Origin g → Reachable g
  | step {g : Graph} (op : Op) : Reachable g → Reachable (g.step op)

/-- Whatever is reached from a reachable graph is reachable. -/
theorem Reachable.foldl {g : Graph} (h : g.Reachable) (ops : List Op) :
    (ops.foldl Graph.step g).Reachable := by
  induction ops generalizing g with
  | nil => exact h
  | cons op rest ih => exact ih (h.step op)

/-! ## What each request does -/

section Requests

variable {g : Graph}

/-- An addition is turned down, finds its edge present, or stages it. -/
theorem step_add_eq (g : Graph) (e : Edge) : g.step (.add e) =
    if e.label.isAny = true ∨ g.Has .merged e then g else g.stageAdd e := by
  by_cases hany : e.label.isAny = true
  · simp [step, add, hany]
  · rw [Bool.not_eq_true] at hany
    have hiff := hasEdge_iff (g := g) hany
    by_cases he : g.hasEdge e = true
    · simp [step, add, hany, he, hiff.mp he]
    · simp [step, add, hany, he, mt hiff.mpr he]

theorem step_add_cases (g : Graph) (e : Edge) :
    g.step (.add e) = g ∨
      (e.label.isAny = false ∧ ¬ g.Has .merged e ∧ g.step (.add e) = g.stageAdd e) := by
  rw [step_add_eq]
  split
  · exact Or.inl rfl
  · rename_i h
    rw [not_or, Bool.not_eq_true] at h
    exact Or.inr ⟨h.1, h.2, rfl⟩

/-- A deletion is turned down, finds its edge absent, or stages it. -/
theorem step_delete_eq (g : Graph) (e : Edge) : g.step (.delete e) =
    if e.label.isAny = false ∧ g.Has .merged e then g.stageDelete e else g := by
  by_cases hany : e.label.isAny = true
  · simp [step, delete, hany]
  · rw [Bool.not_eq_true] at hany
    have hiff := hasEdge_iff (g := g) hany
    by_cases he : g.hasEdge e = true
    · simp [step, delete, hany, he, hiff.mp he]
    · simp [step, delete, hany, he, mt hiff.mpr he]

theorem step_delete_cases (g : Graph) (e : Edge) :
    g.step (.delete e) = g ∨
      (g.Has .merged e ∧ g.step (.delete e) = g.stageDelete e) := by
  rw [step_delete_eq]
  split
  · rename_i h
    exact Or.inr ⟨h.2, rfl⟩
  · exact Or.inl rfl

/-- Labelling a vertex touches nothing but the labels. -/
theorem setVertexLabel_ok {g' : Graph} {v : VertexId} {l : Label}
    (h : g.setVertexLabel v l = .ok g') :
    ∃ labels, g' = { g with vertexLabels := labels } := by
  unfold setVertexLabel at h
  split at h
  · cases h
  · cases h
    exact ⟨_, rfl⟩

theorem step_label (g : Graph) (v : VertexId) (l : Label) :
    ∃ labels, g.step (.label v l) = { g with vertexLabels := labels } := by
  cases h : g.setVertexLabel v l with
  | ok g' =>
    obtain ⟨labels, rfl⟩ := setVertexLabel_ok h
    exact ⟨labels, by simp [step, h]⟩
  | error err => exact ⟨g.vertexLabels, by simp [step, h]⟩

/-- So does labelling many. -/
theorem restoreLabels_ok {g' : Graph} {i : Nat} {labels : List Label}
    (h : g.restoreLabels i labels = .ok g') :
    ∃ labels', g' = { g with vertexLabels := labels' } := by
  induction labels generalizing g i with
  | nil =>
    cases h
    exact ⟨_, rfl⟩
  | cons l rest ih =>
    rw [restoreLabels] at h
    split at h
    · cases h
    split at h
    · cases h
    · rename_i next hlabel
      obtain ⟨labels, rfl⟩ := setVertexLabel_ok hlabel
      obtain ⟨labels', rfl⟩ := ih h
      exact ⟨labels', rfl⟩

/-- A commit folds what is pending and does nothing otherwise. -/
theorem commit_cases (g : Graph) :
    (g.hasPending = true ∧ g.commit.1 = g.folded) ∨
      (g.hasPending = false ∧ g.commit.1 = g) := by
  rw [commit]
  cases h : g.hasPending with
  | true => exact Or.inl ⟨rfl, rfl⟩
  | false => exact Or.inr ⟨rfl, rfl⟩

/-- With nothing pending there is nothing to commit. -/
theorem commit_of_not_pending (h : g.hasPending = false) : g.commit = (g, .zero) := by
  rw [commit, h]
  rfl

/-- **What a request may do**: it leaves the graph as it was, or has one of five effects. -/
theorem step_preserves {P : Graph → Prop} (op : Op) (h : P g)
    (hadd : ∀ e, e.label.isAny = false → ¬ g.Has .merged e → P (g.stageAdd e))
    (hdelete : ∀ e, g.Has .merged e → P (g.stageDelete e))
    (hlabel : ∀ labels, P { g with vertexLabels := labels })
    (hcommit : P g.folded) (hdiscard : P g.discard.1) : P (g.step op) := by
  cases op with
  | add e =>
    rcases step_add_cases g e with heq | ⟨hconcrete, habsent, heq⟩
    · rwa [heq]
    · rw [heq]
      exact hadd e hconcrete habsent
  | delete e =>
    rcases step_delete_cases g e with heq | ⟨hpresent, heq⟩
    · rwa [heq]
    · rw [heq]
      exact hdelete e hpresent
  | label v l =>
    obtain ⟨labels, heq⟩ := step_label g v l
    rw [heq]
    exact hlabel labels
  | commit =>
    show P g.commit.1
    rcases commit_cases g with ⟨-, heq⟩ | ⟨-, heq⟩
    · rwa [heq]
    · rwa [heq]
  | discard => exact hdiscard

/-- **Only a commit moves the permanent view.** -/
theorem list_permanent_step {op : Op} (hop : op ≠ .commit) (d : Direction) (v : VertexId) :
    (g.step op).list .permanent d v = g.list .permanent d v := by
  cases op with
  | add e =>
    rcases step_add_cases g e with heq | ⟨-, -, heq⟩
    · rw [heq]
    · rw [heq, list_stageAdd, if_neg (by simp)]
  | delete e =>
    rcases step_delete_cases g e with heq | ⟨-, heq⟩
    · rw [heq]
    · rw [heq, list_stageDelete, if_neg (by simp)]
  | label v l =>
    obtain ⟨labels, heq⟩ := step_label g v l
    rw [heq]
    rfl
  | commit => exact absurd rfl hop
  | discard => exact list_discard g .permanent d v

end Requests

/-! ## The invariant along a history -/

/-- **A request keeps coherence**, also one that is turned down or has no effect. -/
theorem Coherent.step {g : Graph} (h : g.Coherent) (op : Op) : (g.step op).Coherent :=
  step_preserves op h (fun _ => h.stageAdd) (fun _ => h.stageDelete)
    (fun _ => h.of_same_lists rfl rfl rfl (Nat.le_refl _)) h.folded h.discard

namespace WellFormed

variable {g : Graph}

/-- Neither labels nor further vertex slots matter to consistency. -/
theorem of_same_lists {g' : Graph} (h : g.WellFormed) (hforward : g'.forward = g.forward)
    (hbackward : g'.backward = g.backward) (hpermanent : g'.permanentBound = g.permanentBound)
    (hplus : g'.diffPlus = g.diffPlus) (hminus : g'.diffMinus = g.diffMinus)
    (hle : g.mergedBound ≤ g'.mergedBound) (hsize : g'.mergedBound ≤ UInt32.size) :
    g'.WellFormed := by
  have hhas : ∀ view e, g'.Has view e ↔ g.Has view e := fun view e => by
    rw [Has, Has]
    cases view <;> simp only [list, layers, hforward]
  refine ⟨h.toCoherent.of_same_lists hforward hbackward hpermanent hle, hsize, ?_, ?_,
    fun e => ?_, fun e => ?_⟩
  · rw [hplus]
    exact h.plus_indexed
  · rw [hminus]
    exact h.minus_indexed
  · rw [hplus, hhas, hhas]
    exact h.mem_plus e
  · rw [hminus, hhas, hhas]
    exact h.mem_minus e

theorem relabel (h : g.WellFormed) (labels : Array Label) :
    WellFormed { g with vertexLabels := labels } :=
  h.of_same_lists rfl rfl rfl rfl rfl (Nat.le_refl _) h.mergedBound_le

theorem step (h : g.WellFormed) (op : Op) : (g.step op).WellFormed :=
  step_preserves op h (fun _ => h.stageAdd) (fun _ => h.stageDelete) h.relabel h.folded h.discard

theorem foldl (h : g.WellFormed) (ops : List Op) : (ops.foldl Graph.step g).WellFormed := by
  induction ops generalizing g with
  | nil => exact h
  | cons op rest ih => exact ih (h.step op)

theorem addBelow {g' : Graph} (h : g.WellFormed) {bound : Nat} {e : Edge}
    (hadd : Graph.addBelow bound g e = .ok g') : g'.WellFormed := by
  unfold Graph.addBelow at hadd
  split at hadd
  · cases hadd
  split at hadd
  · cases hadd
  obtain ⟨⟨g', changed⟩, hresult, rfl⟩ := map_eq_ok_iff.mp hadd
  have hstep := h.step (.add e)
  rwa [Graph.step, hresult] at hstep

theorem foldlM_addBelow {bound : Nat} {edges : List Edge} {g' : Graph} (h : g.WellFormed)
    (hfold : edges.foldlM (Graph.addBelow bound) g = .ok g') : g'.WellFormed := by
  induction edges generalizing g with
  | nil =>
    cases hfold
    exact h
  | cons e rest ih =>
    rw [List.foldlM_cons] at hfold
    obtain ⟨next, hadd, hrest⟩ := bind_eq_ok_iff.mp hfold
    exact ih (h.addBelow hadd) hrest

theorem stageLoad {vertexCount : Nat} {edges : List Edge}
    (hstage : Graph.stageLoad vertexCount edges = .ok g) : g.WellFormed := by
  unfold Graph.stageLoad at hstage
  split at hstage
  · cases hstage
  rename_i hcount
  -- the edges are staged and the bound is raised for bare vertices
  obtain ⟨staged, hfold, hraise⟩ := bind_eq_ok_iff.mp hstage
  cases hraise
  have hstaged := WellFormed.empty.foldlM_addBelow hfold
  have hle : max staged.mergedBound vertexCount ≤ UInt32.size :=
    Nat.max_le.mpr ⟨hstaged.mergedBound_le, Nat.not_lt.mp hcount⟩
  exact hstaged.of_same_lists rfl rfl rfl rfl rfl (Nat.le_max_left _ _) hle

theorem load {vertexCount : Nat} {edges : List Edge}
    (hload : Graph.load vertexCount edges = .ok g) : g.WellFormed := by
  obtain ⟨staged, hstage, rfl⟩ := map_eq_ok_iff.mp hload
  exact (WellFormed.stageLoad hstage).step .commit

theorem restore {s : Snapshot} (hrestore : Graph.restore s = .ok g) : g.WellFormed := by
  unfold Graph.restore at hrestore
  split at hrestore
  · cases hrestore
  · rename_i loaded hload
    obtain ⟨labels, rfl⟩ := restoreLabels_ok hrestore
    exact (WellFormed.load hload).relabel labels

theorem origin (h : Origin g) : g.WellFormed := by
  cases h with
  | empty => exact WellFormed.empty
  | load hload => exact WellFormed.load hload
  | restore hrestore => exact WellFormed.restore hrestore

end WellFormed

/-- **Every reachable graph is consistent.** -/
theorem Reachable.wellFormed {g : Graph} (h : g.Reachable) : g.WellFormed := by
  induction h with
  | origin horigin => exact WellFormed.origin horigin
  | step op _ ih => exact ih.step op

/-- **The representation is sound**: it is so from the start, each request keeps it so,
also one that is turned down or has no effect, and hence it is so in every reachable
graph. -/
theorem coherent_throughout :
    (∀ g : Graph, Origin g → g.Coherent) ∧
      (∀ (g : Graph) (op : Op), g.Coherent → (g.step op).Coherent) ∧
      ∀ g : Graph, g.Reachable → g.Coherent :=
  ⟨fun _ h => (WellFormed.origin h).toCoherent, fun _ op h => h.step op,
    fun _ h => h.wellFormed.toCoherent⟩

/-- A committed edge is deleted, an edge beyond the bound is added, added again, and
refused under the wildcard. -/
theorem coherent_throughout_edits :
    Origin .empty ∧
      (([.add ⟨0, 1, ⟨2⟩⟩, .commit, .delete ⟨0, 1, ⟨2⟩⟩, .add ⟨1, 7, ⟨3⟩⟩, .add ⟨1, 7, ⟨3⟩⟩].foldl
        step .empty).step (.add ⟨4, 9, .any⟩)).Coherent := by
  obtain ⟨-, hstep, hreachable⟩ := coherent_throughout
  exact ⟨.empty, hstep _ _ (hreachable _ ((Reachable.origin .empty).foldl _))⟩

end Graph
end DeltaMatch
