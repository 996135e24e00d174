import DeltaMatch.Proofs.Graph.Reachable

/-!
# What is pending

A graph is idle when nothing awaits a commit: its logs are empty, no list is touched and
both states have the same bound. Every graph is idle when it comes about and after each
commit. Edits leave the committed state alone.
-/

namespace DeltaMatch
namespace Graph

/-- Nothing is pending. -/
structure Idle (g : Graph) : Prop where
  plus : g.diffPlus.toList = []
  minus : g.diffMinus.toList = []
  untouched : ∀ d v, v ∉ (g.layers d).overlay
  bounds : g.mergedBound = g.permanentBound

variable {g : Graph}

theorem WellFormed.hasPending_eq_false_iff (h : g.WellFormed) :
    g.hasPending = false ↔ g.Idle := by
  have hoverlay : ∀ d, (g.layers d).overlay.isEmpty = true ↔ ∀ v, v ∉ (g.layers d).overlay :=
    fun d => Std.HashMap.isEmpty_iff_forall_not_mem
  simp only [hasPending, Bool.or_eq_false_iff, Bool.not_eq_false', bne_eq_false_iff_eq]
  constructor
  · rintro ⟨⟨⟨⟨hplus, hminus⟩, hforward⟩, hbackward⟩, hbounds⟩
    refine ⟨h.plus_indexed.isEmpty_iff.mp hplus, h.minus_indexed.isEmpty_iff.mp hminus,
      fun d => (hoverlay d).mp ?_, hbounds⟩
    cases d
    · exact hforward
    · exact hbackward
  · intro hidle
    have hplus := h.plus_indexed.isEmpty_iff.mpr hidle.plus
    have hminus := h.minus_indexed.isEmpty_iff.mpr hidle.minus
    have huntouched := fun d => (hoverlay d).mpr (hidle.untouched d)
    exact ⟨⟨⟨⟨hplus, hminus⟩, huntouched .forward⟩, huntouched .backward⟩, hidle.bounds⟩

namespace Idle

/-- With nothing pending all views have the same lists. -/
theorem list_eq (h : g.Idle) (view : View) (d : Direction) (v : VertexId) :
    g.list view d v = g.list .permanent d v := by
  by_cases hview : view = .merged
  · subst hview
    exact LayeredLists.merged_of_not_mem (h.untouched d v)
  · rw [list_of_ne_merged _ hview, list_of_ne_merged _ (by decide)]

theorem vertexCount_eq (h : g.Idle) (view : View) : g.vertexCount view = g.permanentBound := by
  cases view with
  | permanent => rfl
  | merged | diffPlus | diffMinus => exact h.bounds

theorem relabel (h : g.Idle) (labels : Array Label) : Idle { g with vertexLabels := labels } where
  plus := h.plus
  minus := h.minus
  untouched := fun d => by
    cases d
    · exact h.untouched .forward
    · exact h.untouched .backward
  bounds := h.bounds

theorem empty : Graph.empty.Idle where
  plus := rfl
  minus := rfl
  untouched := fun d v => by cases d <;> exact Std.HashMap.not_mem_empty
  bounds := rfl

theorem folded (g : Graph) : g.folded.Idle where
  plus := rfl
  minus := rfl
  untouched := fun d v => by
    rw [layers_folded]
    exact LayeredLists.not_mem_overlay_commit _ _
  bounds := rfl

theorem discard (g : Graph) : g.discard.1.Idle where
  plus := rfl
  minus := rfl
  untouched := fun d v => by cases d <;> exact Std.HashMap.not_mem_empty
  bounds := rfl

end Idle

/-- **A commit leaves nothing pending.** -/
theorem WellFormed.idle_commit (h : g.WellFormed) : g.commit.1.Idle := by
  rcases commit_cases g with ⟨-, heq⟩ | ⟨hnone, heq⟩
  · rw [heq]
    exact Idle.folded g
  · rw [heq]
    exact h.hasPending_eq_false_iff.mp hnone

/-- **A commit shows in every view what the merged view showed before.** -/
theorem WellFormed.list_commit (h : g.WellFormed) (view : View) (d : Direction) (v : VertexId) :
    g.commit.1.list view d v = g.list .merged d v := by
  rcases commit_cases g with ⟨-, heq⟩ | ⟨hnone, heq⟩
  · rw [heq, h.list_folded]
  · have hidle := h.hasPending_eq_false_iff.mp hnone
    rw [heq, hidle.list_eq view, hidle.list_eq .merged]

theorem WellFormed.has_commit (h : g.WellFormed) {view : View} {e : Edge} :
    g.commit.1.Has view e ↔ g.Has .merged e := by
  rw [Has, h.list_commit, Has]

theorem WellFormed.vertexCount_commit (h : g.WellFormed) (view : View) :
    g.commit.1.vertexCount view = g.mergedBound := by
  rcases commit_cases g with ⟨-, heq⟩ | ⟨hnone, heq⟩
  · rw [heq]
    cases view <;> rfl
  · have hidle := h.hasPending_eq_false_iff.mp hnone
    rw [heq, hidle.vertexCount_eq, hidle.bounds]

theorem vertexLabels_commit (g : Graph) : g.commit.1.vertexLabels = g.vertexLabels := by
  rcases commit_cases g with ⟨-, heq⟩ | ⟨-, heq⟩
  · rw [heq]
    rfl
  · rw [heq]

theorem Origin.idle (h : Origin g) : g.Idle := by
  have hload : ∀ {vertexCount edges loaded}, Graph.load vertexCount edges = .ok loaded →
      loaded.Idle := by
    intro vertexCount edges loaded hload
    obtain ⟨staged, hstage, rfl⟩ := map_eq_ok_iff.mp hload
    exact (WellFormed.stageLoad hstage).idle_commit
  cases h with
  | empty => exact Idle.empty
  | load h => exact hload h
  | restore hrestore =>
    unfold Graph.restore at hrestore
    split at hrestore
    · cases hrestore
    · rename_i loaded h
      obtain ⟨labels, rfl⟩ := restoreLabels_ok hrestore
      exact (hload h).relabel labels

/-- A graph as it comes about, or right after a commit. -/
inductive Settled : Graph → Prop
  | origin {g : Graph} : Origin g → Settled g
  | commit {g : Graph} : Reachable g → Settled g.commit.1

namespace Settled

theorem reachable (h : g.Settled) : g.Reachable := by
  cases h with
  | origin h => exact .origin h
  | commit h => exact h.step .commit

theorem idle (h : g.Settled) : g.Idle := by
  cases h with
  | origin h => exact h.idle
  | commit h => exact h.wellFormed.idle_commit

end Settled

/-- Every history goes on from its last commit, or from its start. -/
theorem Reachable.exists_settled (h : g.Reachable) :
    ∃ (start : Graph) (ops : List Op), start.Settled ∧ (∀ op ∈ ops, op ≠ .commit) ∧
      g = ops.foldl Graph.step start := by
  induction h with
  | origin h => exact ⟨_, [], .origin h, fun _ hop => (nomatch hop), rfl⟩
  | @step g op h ih =>
    by_cases hop : op = .commit
    · subst hop
      exact ⟨_, [], .commit h, fun _ hop => (nomatch hop), rfl⟩
    · obtain ⟨start, ops, hstart, hops, rfl⟩ := ih
      refine ⟨start, ops ++ [op], hstart, fun op' hop' => ?_, by rw [List.foldl_concat]⟩
      rcases List.mem_append.mp hop' with hop' | hop'
      · exact hops op' hop'
      · rwa [List.mem_singleton.mp hop']

/-! ## The committed state -/

/-- The committed state and the labels are the same, whatever is pending. -/
structure SameCommitted (g g' : Graph) : Prop where
  committed : ∀ d, (g'.layers d).committed = (g.layers d).committed
  bound : g'.permanentBound = g.permanentBound
  labels : g'.vertexLabels = g.vertexLabels

namespace SameCommitted

variable {g' g'' : Graph}

theorem refl (g : Graph) : SameCommitted g g := ⟨fun _ => rfl, rfl, rfl⟩

theorem trans (h : SameCommitted g g') (h' : SameCommitted g' g'') : SameCommitted g g'' :=
  ⟨fun d => (h'.committed d).trans (h.committed d), h'.bound.trans h.bound,
    h'.labels.trans h.labels⟩

theorem list_eq (h : SameCommitted g g') (d : Direction) (v : VertexId) :
    g'.list .permanent d v = g.list .permanent d v := by
  rw [list_of_ne_merged _ (by decide), list_of_ne_merged _ (by decide), LayeredLists.permanent,
    LayeredLists.permanent, h.committed]

theorem stageAdd (g : Graph) (e : Edge) : SameCommitted g (g.stageAdd e) :=
  ⟨fun d => by rw [layers_stageAdd, LayeredLists.committed_edit], rfl, rfl⟩

theorem stageDelete (g : Graph) (e : Edge) : SameCommitted g (g.stageDelete e) :=
  ⟨fun d => by rw [layers_stageDelete, LayeredLists.committed_edit], rfl, rfl⟩

theorem discard (g : Graph) : SameCommitted g g.discard.1 :=
  ⟨fun d => by cases d <;> rfl, rfl, rfl⟩

end SameCommitted

/-- The request adds or deletes an edge. -/
def Op.isEdit : Op → Bool
  | .add _ | .delete _ => true
  | .label .. | .commit | .discard => false

/-- **An edit leaves the committed state alone**, and the merged view loses no vertex. -/
theorem edit_step {op : Op} (hop : op.isEdit = true) :
    SameCommitted g (g.step op) ∧ g.mergedBound ≤ (g.step op).mergedBound := by
  cases op with
  | add e =>
    rcases step_add_cases g e with heq | ⟨-, -, heq⟩
    · rw [heq]
      exact ⟨.refl g, Nat.le_refl _⟩
    · rw [heq]
      exact ⟨.stageAdd g e, Nat.le_max_left _ _⟩
  | delete e =>
    rcases step_delete_cases g e with heq | ⟨-, heq⟩
    · rw [heq]
      exact ⟨.refl g, Nat.le_refl _⟩
    · rw [heq]
      exact ⟨.stageDelete g e, Nat.le_refl _⟩
  | label | commit | discard => cases hop

/-- The request labels a vertex. -/
def Op.isLabel : Op → Bool
  | .label .. => true
  | .add _ | .delete _ | .commit | .discard => false

theorem vertexLabels_step {op : Op} (hop : op.isLabel = false) :
    (g.step op).vertexLabels = g.vertexLabels := by
  cases op with
  | add | delete => exact (edit_step rfl).1.labels
  | label => cases hop
  | commit => exact vertexLabels_commit g
  | discard => rfl

/-- **Edits leave the committed state alone**, however many. -/
theorem edit_run {ops : List Op} (hops : ∀ op ∈ ops, op.isEdit = true) :
    SameCommitted g (ops.foldl step g) ∧ g.mergedBound ≤ (ops.foldl step g).mergedBound := by
  induction ops generalizing g with
  | nil => exact ⟨.refl g, Nat.le_refl _⟩
  | cons op rest ih =>
    obtain ⟨hop, hrest⟩ := List.forall_mem_cons.mp hops
    obtain ⟨hsame, hle⟩ := edit_step (g := g) hop
    obtain ⟨hsame', hle'⟩ := ih (g := g.step op) hrest
    exact ⟨hsame.trans hsame', Nat.le_trans hle hle'⟩

end Graph
end DeltaMatch
