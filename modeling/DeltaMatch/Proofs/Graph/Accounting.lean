import DeltaMatch.Proofs.Graph.EdgeSet
import DeltaMatch.Proofs.Graph.EditOrder

/-!
# Accounting for edits

Whether something is pending, and what a commit reports, follows from the edits that took effect
since the last commit or discard: each touches the lists of its endpoints, also when a later edit
cancels it, and each adds one edge to the merged view or takes one from it.
-/

namespace DeltaMatch

/-- Keys counted as a set. -/
theorem size_eq_card {β : Type} {m : Std.HashMap VertexId β} {s : Finset VertexId}
    (h : ∀ v, v ∈ m ↔ v ∈ s) : m.size = s.card := by
  have hkeys : m.keys.toFinset = s := by
    ext v
    rw [List.mem_toFinset, Std.HashMap.mem_keys, h]
  rw [← hkeys, List.toFinset_card_of_nodup Std.HashMap.nodup_keys, Std.HashMap.length_keys]

/-- Logged edges counted as a set. -/
theorem EditLog.Indexed.size_eq_card {log : EditLog} {s : Finset Edge} (h : log.Indexed)
    (hs : ∀ e, e ∈ log.toList ↔ e ∈ s) : log.size = s.card := by
  have hedges : log.toList.toFinset = s := by
    ext e
    rw [List.mem_toFinset, hs]
  rw [h.size_eq, ← hedges, List.toFinset_card_of_nodup h.nodup]

namespace Graph

variable {g : Graph} {e : Edge} {op : Op} {ops : List Op}

/-! ## The edges of a view -/

theorem edgeSet_congr {g' : Graph} {view view' : View} (h : g.WellFormed) (h' : g'.WellFormed)
    (hhas : ∀ e, g'.Has view' e ↔ g.Has view e) : g'.edgeSet view' = g.edgeSet view := by
  ext e
  rw [mem_edgeSet h', mem_edgeSet h, hhas]

/-- Edits leave the committed edges alone. -/
theorem edgeSet_permanent_of_edits (h : g.WellFormed) (hops : ∀ op ∈ ops, op.isEdit = true) :
    (ops.foldl step g).edgeSet .permanent = g.edgeSet .permanent :=
  edgeSet_congr h (h.foldl ops) fun e => by rw [Has, (edit_run hops).1.list_eq, Has]

/-! ## Batches of effective edits -/

/-- The edit answered that it changed the merged view. -/
def tookEffect {α : Type} : Except GraphError (α × Bool) → Bool
  | .ok (_, changed) => changed
  | .error _ => false

theorem tookEffect_iff {α : Type} {answer : Except GraphError (α × Bool)} :
    tookEffect answer = true ↔ ∃ a, answer = .ok (a, true) := by
  rcases answer with err | ⟨a, _ | _⟩ <;> simp [tookEffect]

/-- The edits that took effect since the last commit or discard, in their order. -/
structure Batch where
  added : List Edge := []
  deleted : List Edge := []

namespace Batch

/-- The edges of all edits. -/
def edges (b : Batch) : List Edge := b.added ++ b.deleted

/-- The batch after a request: an edit that takes effect joins it, and a commit or a discard
starts another one. -/
def next (b : Batch) (g : Graph) : Op → Batch
  | .add e => if tookEffect (g.add e) then { b with added := b.added ++ [e] } else b
  | .delete e => if tookEffect (g.delete e) then { b with deleted := b.deleted ++ [e] } else b
  | .label .. => b
  | .commit | .discard => {}

/-- The batch after a history. -/
def after (b : Batch) (g : Graph) : List Op → Batch
  | [] => b
  | op :: rest => (b.next g op).after (g.step op) rest

/-- The touched lists, the bounds and the sizes of the views are as the batch has made them. -/
structure Tracks (b : Batch) (g : Graph) : Prop where
  touched : ∀ d v, v ∈ (g.layers d).overlay ↔ ∃ e ∈ b.edges, e.anchor d = v
  bounds : b.edges = [] → g.mergedBound = g.permanentBound
  balance : (b.added.length : Int) - b.deleted.length =
    (g.edgeSet .merged).card - (g.edgeSet .permanent).card

variable {b : Batch}

/-! ## Along a history -/

theorem Tracks.of_idle (hg : g.WellFormed) (h : g.Idle) : Tracks {} g where
  touched := fun d v => iff_of_false (h.untouched d v) (by simp [edges])
  bounds := fun _ => h.bounds
  balance := by
    have hsame : g.edgeSet .merged = g.edgeSet .permanent :=
      edgeSet_congr hg hg fun e => by rw [Has, h.list_eq, Has]
    simp [hsame]

/-- An edit touches the list of its anchor, whatever it does there. -/
theorem Tracks.mem_overlay_edit (h : b.Tracks g) {b' : Batch}
    (hedges : ∀ e', e' ∈ b'.edges ↔ e' = e ∨ e' ∈ b.edges) (d : Direction) (v : VertexId)
    (change : NeighbourList → NeighbourList) :
    v ∈ ((g.layers d).edit (e.anchor d) change).overlay ↔ ∃ e' ∈ b'.edges, e'.anchor d = v := by
  rw [LayeredLists.mem_overlay_edit, h.touched]
  simp only [hedges, or_and_right, exists_or, exists_eq_left]

theorem Tracks.stageAdd (hg : g.WellFormed) (h : b.Tracks g) (hlabel : e.label.isAny = false)
    (habsent : ¬ g.Has .merged e) :
    Tracks { b with added := b.added ++ [e] } (g.stageAdd e) where
  touched := fun d v => by
    rw [layers_stageAdd]
    exact h.mem_overlay_edit (fun e' => by simp [edges, or_left_comm]) d v _
  bounds := fun hnil => by simp [edges] at hnil
  balance := by
    have hg' := hg.stageAdd hlabel habsent
    have hmerged : (g.stageAdd e).edgeSet .merged = insert e (g.edgeSet .merged) := by
      ext e'
      rw [mem_edgeSet hg', has_stageAdd, Finset.mem_insert, mem_edgeSet hg]
      simp
    have hpermanent : (g.stageAdd e).edgeSet .permanent = g.edgeSet .permanent :=
      edgeSet_congr hg hg' fun e' => by simp [has_stageAdd]
    have hcard := Finset.card_insert_of_notMem (mt (mem_edgeSet hg).mp habsent)
    have hbalance := h.balance
    show ((b.added ++ [e]).length : Int) - b.deleted.length = _
    rw [hmerged, hpermanent, hcard, List.length_append, List.length_singleton]
    omega

theorem Tracks.stageDelete (hg : g.WellFormed) (h : b.Tracks g) (hpresent : g.Has .merged e) :
    Tracks { b with deleted := b.deleted ++ [e] } (g.stageDelete e) where
  touched := fun d v => by
    rw [layers_stageDelete]
    exact h.mem_overlay_edit (fun e' => by simp [edges, or_comm, or_left_comm]) d v _
  bounds := fun hnil => by simp [edges] at hnil
  balance := by
    have hg' := hg.stageDelete hpresent
    have hmerged : (g.stageDelete e).edgeSet .merged = (g.edgeSet .merged).erase e := by
      ext e'
      rw [mem_edgeSet hg', hg.has_stageDelete, Finset.mem_erase, mem_edgeSet hg]
      simp
    have hpermanent : (g.stageDelete e).edgeSet .permanent = g.edgeSet .permanent :=
      edgeSet_congr hg hg' fun e' => by simp [hg.has_stageDelete]
    have hcard := Finset.card_erase_add_one ((mem_edgeSet hg).mpr hpresent)
    have hbalance := h.balance
    show (b.added.length : Int) - (b.deleted ++ [e]).length = _
    rw [hmerged, hpermanent, List.length_append, List.length_singleton]
    omega

/-- **A request keeps the account.** -/
theorem Tracks.step (hg : g.WellFormed) (h : b.Tracks g) (op : Op) :
    (b.next g op).Tracks (g.step op) := by
  cases op with
  | add e =>
    rw [next]
    split
    · rename_i heffect
      obtain ⟨hlabel, habsent⟩ := (add_true_iff e).mp (tookEffect_iff.mp heffect)
      rw [step_add_eq, if_neg (by simp [hlabel, habsent])]
      exact h.stageAdd hg hlabel habsent
    · rename_i hnone
      rw [step_add_of_not_true fun g' hg' => hnone (tookEffect_iff.mpr ⟨g', hg'⟩)]
      exact h
  | delete e =>
    rw [next]
    split
    · rename_i heffect
      have hpresent := (delete_true_iff hg e).mp (tookEffect_iff.mp heffect)
      rw [step_delete_eq, if_pos ⟨hg.concrete_of_has hpresent, hpresent⟩]
      exact h.stageDelete hg hpresent
    · rename_i hnone
      rw [step_delete_of_not_true fun g' hg' => hnone (tookEffect_iff.mpr ⟨g', hg'⟩)]
      exact h
  | label v l =>
    obtain ⟨labels, heq⟩ := step_label g v l
    rw [heq]
    refine ⟨fun d v => ?_, h.bounds, h.balance⟩
    cases d with
    | forward => exact h.touched .forward v
    | backward => exact h.touched .backward v
  | commit => exact .of_idle (hg.step .commit) hg.idle_commit
  | discard => exact .of_idle (hg.step .discard) (.discard g)

theorem Tracks.foldl (hg : g.WellFormed) (h : b.Tracks g) (ops : List Op) :
    (b.after g ops).Tracks (ops.foldl Graph.step g) := by
  induction ops generalizing g b with
  | nil => exact h
  | cons op rest ih => exact ih (hg.step op) (h.step hg op)

end Batch

/-! ## What is reported -/

theorem WellFormed.size_diffPlus (h : g.WellFormed) :
    g.diffPlus.size = (g.edgeSet .merged \ g.edgeSet .permanent).card :=
  h.plus_indexed.size_eq_card fun e => by
    rw [h.mem_plus, Finset.mem_sdiff, mem_edgeSet h, mem_edgeSet h]

theorem WellFormed.size_diffMinus (h : g.WellFormed) :
    g.diffMinus.size = (g.edgeSet .permanent \ g.edgeSet .merged).card :=
  h.minus_indexed.size_eq_card fun e => by
    rw [h.mem_minus, Finset.mem_sdiff, mem_edgeSet h, mem_edgeSet h]

/-- A commit reports what is pending, which is nothing if it has nothing to do. -/
theorem WellFormed.commit_stats (h : g.WellFormed) : g.commit.2 = g.pendingStats := by
  cases hpending : g.hasPending with
  | true =>
    rw [commit, hpending]
    rfl
  | false =>
    have hidle := h.hasPending_eq_false_iff.mp hpending
    have hempty : ∀ d, (g.layers d).overlay.size = 0 := fun d =>
      size_eq_card (s := ∅) fun v => by simp [hidle.untouched d v]
    have hforward : g.forward.overlay.size = 0 := hempty .forward
    have hbackward : g.backward.overlay.size = 0 := hempty .backward
    rw [commit_of_not_pending hpending, pendingStats, h.plus_indexed.size_eq, hidle.plus,
      h.minus_indexed.size_eq, hidle.minus, hforward, hbackward]
    rfl

namespace Batch

variable {b : Batch}

/-- Touched lists counted by their vertices. -/
theorem Tracks.size_overlay (h : b.Tracks g) (d : Direction) :
    (g.layers d).overlay.size = (b.edges.map (·.anchor d)).toFinset.card :=
  size_eq_card fun v => by rw [h.touched, List.mem_toFinset, List.mem_map]

/-- **Something is pending exactly if an edit took effect**, also one that was cancelled. -/
theorem Tracks.hasPending_iff (hg : g.WellFormed) (h : b.Tracks g) :
    g.hasPending = true ↔ b.edges ≠ [] := by
  rw [← Bool.not_eq_false, not_iff_not, hg.hasPending_eq_false_iff]
  constructor
  · intro hidle
    rw [List.eq_nil_iff_forall_not_mem]
    intro e he
    exact hidle.untouched .forward _ ((h.touched .forward _).mpr ⟨e, he, rfl⟩)
  · intro hnil
    have huntouched : ∀ d v, v ∉ (g.layers d).overlay := fun d v => by
      rw [h.touched, hnil]
      simp
    -- untouched lists read alike in both views, so there is nothing to log
    have hhas : ∀ e, g.Has .merged e ↔ g.Has .permanent e := fun e => by
      rw [Has, list_merged, LayeredLists.merged_of_not_mem (huntouched .forward _), Has,
        list_of_ne_merged _ (by decide)]
    refine ⟨?_, ?_, huntouched, h.bounds hnil⟩
    · exact List.eq_nil_iff_forall_not_mem.mpr fun e => by simp [hg.mem_plus, hhas]
    · exact List.eq_nil_iff_forall_not_mem.mpr fun e => by simp [hg.mem_minus, hhas]

/-- What a graph reports about the edits that took effect since the last commit or discard. -/
structure Accounts (b : Batch) (g : Graph) : Prop where
  /-- Cancelled edits count. -/
  pending_iff : g.hasPending = true ↔ b.edges ≠ []
  /-- The lists of distinct sources and targets, and the differences of the views. -/
  committed : g.commit.2 =
    ⟨(b.edges.map (·.source)).toFinset.card + (b.edges.map (·.target)).toFinset.card,
      (g.edgeSet .merged \ g.edgeSet .permanent).card,
      (g.edgeSet .permanent \ g.edgeSet .merged).card⟩
  noop_iff : g.commit.2.isNoop = true ↔ g.hasPending = false
  discarded : g.discard.2 = g.commit.2.edgesAdded + g.commit.2.edgesDeleted
  logs : (b.added.length : Int) - b.deleted.length = g.diffPlus.size - g.diffMinus.size
  views : (b.added.length : Int) - b.deleted.length =
    (g.edgeSet .merged).card - (g.edgeSet .permanent).card

theorem Tracks.accounts (hg : g.WellFormed) (h : b.Tracks g) : b.Accounts g := by
  have hforward : g.forward.overlay.size = (b.edges.map (·.source)).toFinset.card :=
    h.size_overlay .forward
  have hbackward : g.backward.overlay.size = (b.edges.map (·.target)).toFinset.card :=
    h.size_overlay .backward
  have hstats := hg.commit_stats
  rw [pendingStats, hforward, hbackward, hg.size_diffPlus, hg.size_diffMinus] at hstats
  refine ⟨h.hasPending_iff hg, hstats, ?_, ?_, ?_, h.balance⟩
  · constructor
    · intro hnoop
      rw [← Bool.not_eq_true, h.hasPending_iff hg]
      rw [CommitStats.isNoop, beq_iff_eq, hstats, CommitStats.zero, CommitStats.mk.injEq] at hnoop
      have hsources : (b.edges.map (·.source)).toFinset = ∅ := by
        rw [← Finset.card_eq_zero]
        omega
      simpa using hsources
    · intro hnone
      rw [commit_of_not_pending hnone]
      rfl
  · rw [hstats, discard, hg.size_diffPlus, hg.size_diffMinus]
  · have hplus := Finset.card_sdiff_add_card_inter (g.edgeSet .merged) (g.edgeSet .permanent)
    have hminus := Finset.card_sdiff_add_card_inter (g.edgeSet .permanent) (g.edgeSet .merged)
    have hbalance := h.balance
    rw [Finset.inter_comm] at hminus
    rw [hg.size_diffPlus, hg.size_diffMinus]
    omega

/-- **The account is right after every history.** -/
theorem accounts_after {start : Graph} (horigin : Origin start) (ops : List Op) :
    (after {} start ops).Accounts (ops.foldl Graph.step start) := by
  have hg := WellFormed.origin horigin
  exact ((Tracks.of_idle hg horigin.idle).foldl hg ops).accounts (hg.foldl ops)

end Batch
end Graph
end DeltaMatch
