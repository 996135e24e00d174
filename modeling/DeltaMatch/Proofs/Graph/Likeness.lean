import DeltaMatch.Proofs.Graph.Pending

/-!
# Alike graphs

A graph is more than what can be read from it: its maps have a layout, and its logs keep
slots of edges that are gone. Alike graphs agree on everything else. Every request answers
alike graphs in the same way and leaves them alike.
-/

namespace DeltaMatch

/-- Maps with the same keys have the same size. -/
theorem size_eq_of_same_keys {β γ : Type} {m : Std.HashMap VertexId β}
    {m' : Std.HashMap VertexId γ} (h : ∀ v, v ∈ m ↔ v ∈ m') : m.size = m'.size := by
  have hperm : m.keys.Perm m'.keys := by
    rw [List.perm_ext_iff_of_nodup Std.HashMap.nodup_keys Std.HashMap.nodup_keys]
    intro v
    rw [Std.HashMap.mem_keys, Std.HashMap.mem_keys, h]
  rw [← Std.HashMap.length_keys, hperm.length_eq, Std.HashMap.length_keys]

namespace EditLog

/-- Whatever is asked of a log is answered alike. -/
structure SameAnswers (log log' : EditLog) : Prop where
  toList : log.toList = log'.toList
  size : log.size = log'.size
  isEmpty : log.isEmpty = log'.isEmpty
  contains : ∀ e, log.contains e = log'.contains e

namespace Indexed

variable {log log' : EditLog}

/-- Logs of the same edges in the same order answer alike. -/
theorem sameAnswers (h : log.Indexed) (h' : log'.Indexed) (heq : log.toList = log'.toList) :
    log.SameAnswers log' where
  toList := heq
  size := by rw [h.size_eq, h'.size_eq, heq]
  isEmpty := by rw [Bool.eq_iff_iff, h.isEmpty_iff, h'.isEmpty_iff, heq]
  contains := fun e => by rw [Bool.eq_iff_iff, h.contains_iff, h'.contains_iff, heq]

theorem toList_push_congr (h : log.Indexed) (h' : log'.Indexed) (heq : log.toList = log'.toList)
    (e : Edge) : (log.push e).toList = (log'.push e).toList := by
  rw [toList_push h, toList_push h', heq]

theorem toList_erase_congr (h : log.Indexed) (h' : log'.Indexed) (heq : log.toList = log'.toList)
    (e : Edge) : (log.erase e).toList = (log'.erase e).toList := by
  rw [toList_erase h, toList_erase h', heq]

end Indexed
end EditLog

namespace Graph

/-- The graphs hold the same lists, touched vertices, labels, logs and bounds. -/
structure Alike (g g' : Graph) : Prop where
  wellFormed : g.WellFormed
  wellFormed' : g'.WellFormed
  lists : ∀ view d v, g.list view d v = g'.list view d v
  touched : ∀ d v, v ∈ (g.layers d).overlay ↔ v ∈ (g'.layers d).overlay
  labels : g.vertexLabels = g'.vertexLabels
  plus : g.diffPlus.toList = g'.diffPlus.toList
  minus : g.diffMinus.toList = g'.diffMinus.toList
  permanentBound : g.permanentBound = g'.permanentBound
  mergedBound : g.mergedBound = g'.mergedBound

namespace Alike

variable {g g' : Graph} {e : Edge}

/-- Idle graphs are alike when their committed states are. -/
theorem of_idle (hg : g.WellFormed) (hg' : g'.WellFormed) (hidle : g.Idle) (hidle' : g'.Idle)
    (hlists : ∀ d v, g.list .permanent d v = g'.list .permanent d v)
    (hbound : g.permanentBound = g'.permanentBound) (hlabels : g.vertexLabels = g'.vertexLabels) :
    Alike g g' where
  wellFormed := hg
  wellFormed' := hg'
  lists := fun view d v => by rw [hidle.list_eq, hidle'.list_eq, hlists]
  touched := fun d v => iff_of_false (hidle.untouched d v) (hidle'.untouched d v)
  labels := hlabels
  plus := by rw [hidle.plus, hidle'.plus]
  minus := by rw [hidle.minus, hidle'.minus]
  permanentBound := hbound
  mergedBound := by rw [hidle.bounds, hidle'.bounds, hbound]

/-! ## Reading -/

theorem has_iff (h : Alike g g') (view : View) (e : Edge) : g.Has view e ↔ g'.Has view e := by
  rw [Has, Has, h.lists]

theorem hasEdge_eq (h : Alike g g') (e : Edge) : g.hasEdge e = g'.hasEdge e := by
  rw [hasEdge, hasEdge, h.lists]

theorem vertexCount_eq (h : Alike g g') (view : View) :
    g.vertexCount view = g'.vertexCount view := by
  cases view with
  | permanent => exact h.permanentBound
  | merged | diffPlus | diffMinus => exact h.mergedBound

theorem samePlus (h : Alike g g') : g.diffPlus.SameAnswers g'.diffPlus :=
  h.wellFormed.plus_indexed.sameAnswers h.wellFormed'.plus_indexed h.plus

theorem sameMinus (h : Alike g g') : g.diffMinus.SameAnswers g'.diffMinus :=
  h.wellFormed.minus_indexed.sameAnswers h.wellFormed'.minus_indexed h.minus

theorem idle_iff (h : Alike g g') : g.Idle ↔ g'.Idle := by
  constructor
  · intro hidle
    exact ⟨h.plus ▸ hidle.plus, h.minus ▸ hidle.minus,
      fun d v hv => hidle.untouched d v ((h.touched d v).mpr hv),
      by rw [← h.mergedBound, ← h.permanentBound, hidle.bounds]⟩
  · intro hidle
    exact ⟨h.plus.trans hidle.plus, h.minus.trans hidle.minus,
      fun d v hv => hidle.untouched d v ((h.touched d v).mp hv),
      by rw [h.mergedBound, h.permanentBound, hidle.bounds]⟩

theorem hasPending_eq (h : Alike g g') : g.hasPending = g'.hasPending := by
  have hiff : g.hasPending = false ↔ g'.hasPending = false := by
    rw [h.wellFormed.hasPending_eq_false_iff, h.wellFormed'.hasPending_eq_false_iff, h.idle_iff]
  rw [Bool.eq_iff_iff, ← Bool.not_eq_false, ← Bool.not_eq_false, hiff]

theorem size_overlay_eq (h : Alike g g') (d : Direction) :
    (g.layers d).overlay.size = (g'.layers d).overlay.size :=
  size_eq_of_same_keys (h.touched d)

theorem pendingStats_eq (h : Alike g g') : g.pendingStats = g'.pendingStats := by
  have hforward : g.forward.overlay.size = g'.forward.overlay.size := h.size_overlay_eq .forward
  have hbackward : g.backward.overlay.size = g'.backward.overlay.size := h.size_overlay_eq .backward
  rw [pendingStats, pendingStats, hforward, hbackward, h.samePlus.size, h.sameMinus.size]

theorem committed_eq (h : Alike g g') (d : Direction) :
    (g.layers d).committed = (g'.layers d).committed := by
  apply Array.toList_inj.mp
  rw [h.wellFormed.toList_committed, h.wellFormed'.toList_committed, h.permanentBound]
  simp only [h.lists]

/-! ## Requests -/

theorem stageAdd (h : Alike g g') (hlabel : e.label.isAny = false) (habsent : ¬ g.Has .merged e) :
    Alike (g.stageAdd e) (g'.stageAdd e) where
  wellFormed := h.wellFormed.stageAdd hlabel habsent
  wellFormed' := h.wellFormed'.stageAdd hlabel fun he => habsent ((h.has_iff .merged e).mpr he)
  lists := fun view d v => by rw [list_stageAdd, list_stageAdd, h.lists, h.lists]
  touched := fun d v => by
    rw [layers_stageAdd, layers_stageAdd, LayeredLists.mem_overlay_edit,
      LayeredLists.mem_overlay_edit, h.touched]
  labels := h.labels
  plus := by
    show (if g.diffMinus.contains e then g.diffPlus else g.diffPlus.push e).toList =
      (if g'.diffMinus.contains e then g'.diffPlus else g'.diffPlus.push e).toList
    rw [h.sameMinus.contains]
    split
    · exact h.plus
    · exact h.wellFormed.plus_indexed.toList_push_congr h.wellFormed'.plus_indexed h.plus e
  minus := h.wellFormed.minus_indexed.toList_erase_congr h.wellFormed'.minus_indexed h.minus e
  permanentBound := h.permanentBound
  mergedBound := by rw [Coherent.mergedBound_stageAdd, Coherent.mergedBound_stageAdd, h.mergedBound]

theorem stageDelete (h : Alike g g') (hpresent : g.Has .merged e) :
    Alike (g.stageDelete e) (g'.stageDelete e) where
  wellFormed := h.wellFormed.stageDelete hpresent
  wellFormed' := h.wellFormed'.stageDelete ((h.has_iff .merged e).mp hpresent)
  lists := fun view d v => by rw [list_stageDelete, list_stageDelete, h.lists, h.lists]
  touched := fun d v => by
    rw [layers_stageDelete, layers_stageDelete, LayeredLists.mem_overlay_edit,
      LayeredLists.mem_overlay_edit, h.touched]
  labels := h.labels
  plus := h.wellFormed.plus_indexed.toList_erase_congr h.wellFormed'.plus_indexed h.plus e
  minus := by
    show (if g.diffPlus.contains e then g.diffMinus else g.diffMinus.push e).toList =
      (if g'.diffPlus.contains e then g'.diffMinus else g'.diffMinus.push e).toList
    rw [h.samePlus.contains]
    split
    · exact h.minus
    · exact h.wellFormed.minus_indexed.toList_push_congr h.wellFormed'.minus_indexed h.minus e
  permanentBound := h.permanentBound
  mergedBound := h.mergedBound

theorem relabel (h : Alike g g') (labels : Array Label) :
    Alike { g with vertexLabels := labels } { g' with vertexLabels := labels } where
  wellFormed := h.wellFormed.relabel labels
  wellFormed' := h.wellFormed'.relabel labels
  lists := fun view d v => by
    have hlist := h.lists view d v
    cases view <;> cases d <;> exact hlist
  touched := fun d v => by
    have htouched := h.touched d v
    cases d <;> exact htouched
  labels := rfl
  plus := h.plus
  minus := h.minus
  permanentBound := h.permanentBound
  mergedBound := h.mergedBound

theorem folded (h : Alike g g') : Alike g.folded g'.folded :=
  of_idle h.wellFormed.folded h.wellFormed'.folded (.folded g) (.folded g')
    (fun d v => by rw [h.wellFormed.list_folded, h.wellFormed'.list_folded, h.lists])
    h.mergedBound h.labels

/-- Two requests fail with the same error, or give the same answer and leave alike graphs. -/
def Results {α : Type} (r r' : Except GraphError (Graph × α)) : Prop :=
  (∃ err, r = .error err ∧ r' = .error err) ∨
    ∃ next next' answer, r = .ok (next, answer) ∧ r' = .ok (next', answer) ∧ Alike next next'

/-- The answers, the graphs aside. -/
theorem Results.answer {α : Type} {r r' : Except GraphError (Graph × α)} (h : Results r r') :
    r.map Prod.snd = r'.map Prod.snd := by
  rcases h with ⟨err, rfl, rfl⟩ | ⟨next, next', answer, rfl, rfl, -⟩
  · rfl
  · rfl

theorem add (h : Alike g g') (e : Edge) : Results (g.add e) (g'.add e) := by
  rw [Graph.add, Graph.add, h.hasEdge_eq]
  split
  · exact Or.inl ⟨_, rfl, rfl⟩
  · rename_i hany
    rw [Bool.not_eq_true] at hany
    split
    · exact Or.inr ⟨_, _, _, rfl, rfl, h⟩
    · rename_i hhas
      refine Or.inr ⟨_, _, _, rfl, rfl, h.stageAdd hany fun he => hhas ?_⟩
      exact (hasEdge_iff hany).mpr ((h.has_iff .merged e).mp he)

theorem delete (h : Alike g g') (e : Edge) : Results (g.delete e) (g'.delete e) := by
  rw [Graph.delete, Graph.delete, h.hasEdge_eq]
  split
  · exact Or.inl ⟨_, rfl, rfl⟩
  · rename_i hany
    rw [Bool.not_eq_true] at hany
    split
    · rename_i hhas
      have hpresent := (h.has_iff .merged e).mpr ((hasEdge_iff hany).mp hhas)
      exact Or.inr ⟨_, _, _, rfl, rfl, h.stageDelete hpresent⟩
    · exact Or.inr ⟨_, _, _, rfl, rfl, h⟩

theorem setVertexLabel (h : Alike g g') (v : VertexId) (l : Label) :
    (∃ err, g.setVertexLabel v l = .error err ∧ g'.setVertexLabel v l = .error err) ∨
      ∃ labels, g.setVertexLabel v l = .ok { g with vertexLabels := labels } ∧
        g'.setVertexLabel v l = .ok { g' with vertexLabels := labels } := by
  rw [Graph.setVertexLabel, Graph.setVertexLabel, h.labels]
  split
  · exact Or.inl ⟨_, rfl, rfl⟩
  · exact Or.inr ⟨_, rfl, rfl⟩

theorem commit (h : Alike g g') : Alike g.commit.1 g'.commit.1 ∧ g.commit.2 = g'.commit.2 := by
  rw [Graph.commit, Graph.commit, h.hasPending_eq, h.pendingStats_eq]
  split
  · exact ⟨h.folded, rfl⟩
  · exact ⟨h, rfl⟩

theorem discard (h : Alike g g') : Alike g.discard.1 g'.discard.1 ∧ g.discard.2 = g'.discard.2 := by
  refine ⟨of_idle h.wellFormed.discard h.wellFormed'.discard (.discard g) (.discard g')
    (fun d v => by rw [list_discard, list_discard, h.lists]) h.permanentBound h.labels, ?_⟩
  rw [Graph.discard, Graph.discard, h.samePlus.size, h.sameMinus.size]

/-- **A request leaves alike graphs alike.** -/
theorem step (h : Alike g g') (op : Op) : Alike (g.step op) (g'.step op) := by
  cases op with
  | add e =>
    rcases h.add e with ⟨err, he, he'⟩ | ⟨next, next', answer, he, he', hnext⟩
    · rwa [Graph.step, Graph.step, he, he']
    · rwa [Graph.step, Graph.step, he, he']
  | delete e =>
    rcases h.delete e with ⟨err, he, he'⟩ | ⟨next, next', answer, he, he', hnext⟩
    · rwa [Graph.step, Graph.step, he, he']
    · rwa [Graph.step, Graph.step, he, he']
  | label v l =>
    rcases h.setVertexLabel v l with ⟨err, hl, hl'⟩ | ⟨labels, hl, hl'⟩
    · rwa [Graph.step, Graph.step, hl, hl']
    · rw [Graph.step, Graph.step, hl, hl']
      exact h.relabel labels
  | commit => exact h.commit.1
  | discard => exact h.discard.1

/-- So does every run. -/
theorem foldl (h : Alike g g') (ops : List Op) :
    Alike (ops.foldl Graph.step g) (ops.foldl Graph.step g') := by
  induction ops generalizing g g' with
  | nil => exact h
  | cons op rest ih => exact ih (h.step op)

end Alike
end Graph
end DeltaMatch
