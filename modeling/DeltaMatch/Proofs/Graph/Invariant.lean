import DeltaMatch.Graph.Snapshot
import DeltaMatch.Proofs.Graph.Membership

/-!
# The invariant of the store

What every reader of a graph relies on, and that each operation keeps it. A graph is
coherent when its lists, bounds and overlays fit together: the two directions hold the
same edges, lists ascend, every endpoint lies below the bound of its view. It is well
formed when, besides, the two logs are the set differences of the two states. Coherence
is kept whatever the logs hold.
-/

namespace DeltaMatch
namespace Graph

/-- The lists, the bounds and the overlays fit together. -/
structure Coherent (g : Graph) : Prop where
  /-- Both directions have a committed list for every committed vertex. -/
  sizes : ∀ d, (g.layers d).committed.size = g.permanentBound
  bounds : g.permanentBound ≤ g.mergedBound
  overlay_bounded : ∀ d, ∀ v ∈ (g.layers d).overlay, v.toNat < g.mergedBound
  /-- By neighbour and then by label, and strictly: nothing is repeated. -/
  ascending : ∀ view d v, (g.list view d v).toList.Pairwise (· < ·)
  /-- The wildcard is never stored. -/
  concrete : ∀ view d v, ∀ n ∈ g.list view d v, n.label ≠ .any
  /-- The backward lists hold what the forward lists hold. -/
  mirrored : ∀ view u v label, ⟨v, label⟩ ∈ g.list view .forward u ↔
    ⟨u, label⟩ ∈ g.list view .backward v
  /-- A vertex that has neighbours is below the bound of the view, and so are they. -/
  bounded : ∀ view d v, ∀ n ∈ g.list view d v,
    v.toNat < g.vertexCount view ∧ n.id.toNat < g.vertexCount view

namespace Coherent

variable {g : Graph}

/-! ## Reading -/

theorem nodup (h : g.Coherent) (view : View) (d : Direction) (v : VertexId) :
    (g.list view d v).toList.Nodup :=
  (NeighbourList.nodup_iff_ascending _).mpr (h.ascending view d v)

theorem mem_list (h : g.Coherent) {view : View} {d : Direction} {v : VertexId} {n : Neighbour} :
    n ∈ g.list view d v ↔ g.Has view (n.edgeOf d v) := by
  cases d with
  | forward => exact mem_list_forward
  | backward => exact (h.mirrored view n.id v n.label).symm

theorem concrete_of_has (h : g.Coherent) {view : View} {e : Edge} (he : g.Has view e) :
    e.label.isAny = false :=
  Bool.eq_false_iff.mpr fun hany =>
    h.concrete view .forward e.source _ he (Label.isAny_iff.mp hany)

theorem anchor_lt (h : g.Coherent) {view : View} {e : Edge} (he : g.Has view e) (d : Direction) :
    (e.anchor d).toNat < g.vertexCount view := by
  have hlt := h.bounded view .forward e.source _ he
  cases d with
  | forward => exact hlt.1
  | backward => exact hlt.2

/-- Both endpoints of a stored edge are vertices of the merged view. -/
theorem lt_mergedBound (h : g.Coherent) {view : View} {e : Edge} (he : g.Has view e)
    (d : Direction) : (e.anchor d).toNat < g.mergedBound := by
  have hlt := h.anchor_lt he d
  cases view with
  | permanent => exact Nat.lt_of_lt_of_le hlt h.bounds
  | merged | diffPlus | diffMinus => exact hlt

/-- It is enough to know the bounds of the edges. -/
theorem bounded_of_anchor_lt {view : View} {d : Direction} {v : VertexId} {n : Neighbour}
    (h : ∀ d', ((n.edgeOf d v).anchor d').toNat < g.vertexCount view) :
    v.toNat < g.vertexCount view ∧ n.id.toNat < g.vertexCount view := by
  cases d with
  | forward => exact ⟨h .forward, h .backward⟩
  | backward => exact ⟨h .backward, h .forward⟩

/-- A vertex beyond the bound of a view has no neighbours in it. -/
theorem list_of_le (h : g.Coherent) {view : View} {d : Direction} {v : VertexId}
    (hv : g.vertexCount view ≤ v.toNat) : g.list view d v = .empty := by
  apply NeighbourList.toList_inj
  rw [NeighbourList.toList_empty, List.eq_nil_iff_forall_not_mem]
  intro n hn
  exact Nat.not_le.mpr (h.bounded view d v n hn).1 hv

theorem empty : Graph.empty.Coherent := by
  have hlist : ∀ view d v, Graph.empty.list view d v = .empty := fun view d v => by
    cases view <;> cases d <;> simp [list, layers, Graph.empty]
  have hnone : ∀ view d v n, n ∉ Graph.empty.list view d v := fun view d v n => by
    rw [hlist]
    exact NeighbourList.not_mem_empty n
  refine ⟨fun d => by cases d <;> rfl, Nat.le_refl _, fun d v hv => ?_, fun view d v => ?_,
    fun view d v n hn => absurd hn (hnone view d v n), fun view u v label => ?_,
    fun view d v n hn => absurd hn (hnone view d v n)⟩
  · cases d <;> exact absurd hv Std.HashMap.not_mem_empty
  · rw [hlist]
    exact List.Pairwise.nil
  · exact iff_of_false (hnone _ _ _ _) (hnone _ _ _ _)

/-! ## Additions -/

theorem mergedBound_stageAdd (g : Graph) (e : Edge) : (g.stageAdd e).mergedBound =
    max g.mergedBound (max (e.source.toNat + 1) (e.target.toNat + 1)) := rfl

theorem anchor_lt_stageAdd (g : Graph) (e : Edge) (d : Direction) :
    (e.anchor d).toNat < (g.stageAdd e).mergedBound := by
  rw [mergedBound_stageAdd]
  cases d <;> simp only [Edge.anchor] <;> omega

theorem vertexCount_le_stageAdd (g : Graph) (e : Edge) (view : View) :
    g.vertexCount view ≤ (g.stageAdd e).vertexCount view := by
  cases view with
  | permanent => exact Nat.le_refl _
  | merged | diffPlus | diffMinus => exact Nat.le_max_left _ _

theorem stageAdd (h : g.Coherent) {e : Edge} (hlabel : e.label.isAny = false)
    (habsent : ¬ g.Has .merged e) : (g.stageAdd e).Coherent where
  sizes := fun d => by
    rw [layers_stageAdd, LayeredLists.committed_edit]
    exact h.sizes d
  bounds := Nat.le_trans h.bounds (Nat.le_max_left _ _)
  overlay_bounded := fun d v hv => by
    rw [layers_stageAdd, LayeredLists.mem_overlay_edit] at hv
    rcases hv with rfl | hv
    · exact anchor_lt_stageAdd g e d
    · exact Nat.lt_of_lt_of_le (h.overlay_bounded d v hv) (Nat.le_max_left _ _)
  ascending := fun view d v => by
    rw [← NeighbourList.nodup_iff_ascending, list_stageAdd]
    split
    · rename_i hand
      obtain ⟨rfl, rfl⟩ := hand
      -- a repeated entry would be the edge itself, which is absent
      refine NeighbourList.nodup_add (h.nodup _ _ _) fun hmem => habsent ?_
      rw [h.mem_list, Edge.edgeOf_entry] at hmem
      exact hmem
    · exact h.nodup view d v
  concrete := fun view d v n hn => by
    rcases mem_list_stageAdd.mp hn with ⟨-, heq⟩ | hn
    · have hn : n.label = e.label := by
        rw [← heq]
        cases d <;> rfl
      rw [hn]
      exact fun hany => Bool.eq_false_iff.mp hlabel (Label.isAny_iff.mpr hany)
    · exact h.concrete view d v n hn
  mirrored := fun view u v label => by
    rw [mem_list_stageAdd, mem_list_stageAdd, h.mirrored]
    rfl
  bounded := fun view d v n hn => by
    refine bounded_of_anchor_lt (d := d) fun d' => ?_
    rcases mem_list_stageAdd.mp hn with ⟨rfl, heq⟩ | hn
    · rw [heq]
      exact anchor_lt_stageAdd g e d'
    · exact Nat.lt_of_lt_of_le (h.anchor_lt (h.mem_list.mp hn) d')
        (vertexCount_le_stageAdd g e view)

/-! ## Deletions -/

theorem mem_list_stageDelete (h : g.Coherent) {e : Edge} {view : View} {d : Direction}
    {v : VertexId} {n : Neighbour} : n ∈ (g.stageDelete e).list view d v ↔
      ¬ (view = .merged ∧ n.edgeOf d v = e) ∧ n ∈ g.list view d v :=
  Graph.mem_list_stageDelete (h.nodup .merged d v)

theorem has_stageDelete (h : g.Coherent) {e e' : Edge} {view : View} :
    (g.stageDelete e).Has view e' ↔ ¬ (view = .merged ∧ e' = e) ∧ g.Has view e' :=
  h.mem_list_stageDelete

theorem stageDelete (h : g.Coherent) {e : Edge} (hpresent : g.Has .merged e) :
    (g.stageDelete e).Coherent where
  sizes := fun d => by
    rw [layers_stageDelete, LayeredLists.committed_edit]
    exact h.sizes d
  bounds := h.bounds
  overlay_bounded := fun d v hv => by
    rw [layers_stageDelete, LayeredLists.mem_overlay_edit] at hv
    rcases hv with rfl | hv
    · exact h.lt_mergedBound hpresent d
    · exact h.overlay_bounded d v hv
  ascending := fun view d v => by
    rw [← NeighbourList.nodup_iff_ascending, list_stageDelete]
    split
    · exact NeighbourList.nodup_erase (h.nodup .merged d v) _
    · exact h.nodup view d v
  concrete := fun view d v n hn => h.concrete view d v n (h.mem_list_stageDelete.mp hn).2
  mirrored := fun view u v label => by
    rw [h.mem_list_stageDelete, h.mem_list_stageDelete, h.mirrored]
    rfl
  bounded := fun view d v n hn => by
    have hcount : (g.stageDelete e).vertexCount view = g.vertexCount view := by cases view <;> rfl
    rw [hcount]
    exact h.bounded view d v n (h.mem_list_stageDelete.mp hn).2

/-! ## Closing a batch -/

/-- A graph whose lists are all those of one view, with bounds to match. -/
theorem of_one_view {g' : Graph} {view : View} (h : g.Coherent)
    (hlist : ∀ view' d v, g'.list view' d v = g.list view d v)
    (hcount : ∀ view', g'.vertexCount view' = g.vertexCount view)
    (hsizes : ∀ d, (g'.layers d).committed.size = g'.permanentBound)
    (hoverlay : ∀ d v, v ∉ (g'.layers d).overlay) : g'.Coherent where
  sizes := hsizes
  bounds := Nat.le_of_eq ((hcount .permanent).trans (hcount .merged).symm)
  overlay_bounded := fun d v hv => absurd hv (hoverlay d v)
  ascending := fun view' d v => by
    rw [hlist]
    exact h.ascending view d v
  concrete := fun view' d v n hn => h.concrete view d v n (hlist view' d v ▸ hn)
  mirrored := fun view' u v label => by
    rw [hlist, hlist]
    exact h.mirrored view u v label
  bounded := fun view' d v n hn => by
    rw [hlist] at hn
    rw [hcount]
    exact h.bounded view d v n hn

theorem list_folded (h : g.Coherent) (view : View) (d : Direction) (v : VertexId) :
    g.folded.list view d v = g.list .merged d v :=
  Graph.list_folded g view (h.overlay_bounded d) (by rw [h.sizes d]; exact h.bounds) v

theorem has_folded (h : g.Coherent) {view : View} {e : Edge} :
    g.folded.Has view e ↔ g.Has .merged e := by
  rw [Has, h.list_folded, Has]

theorem folded (h : g.Coherent) : g.folded.Coherent := by
  refine h.of_one_view h.list_folded (fun view => by cases view <;> rfl) (fun d => ?_)
    fun d v hv => ?_
  · rw [layers_folded]
    exact LayeredLists.size_committed_commit (by rw [h.sizes d]; exact h.bounds)
  · rw [layers_folded] at hv
    exact LayeredLists.not_mem_overlay_commit _ _ hv

theorem has_discard {view : View} {e : Edge} :
    g.discard.1.Has view e ↔ g.Has .permanent e := by
  rw [Has, list_discard, Has]

theorem discard (h : g.Coherent) : g.discard.1.Coherent := by
  refine h.of_one_view (list_discard g) (fun view => by cases view <;> rfl) (fun d => ?_)
    fun d v hv => ?_
  · rw [← show (g.layers d).committed.size = g.discard.1.permanentBound from h.sizes d]
    cases d <;> rfl
  · cases d <;> exact absurd hv Std.HashMap.not_mem_empty

/-! ## Labels and bare slots -/

/-- Neither labels nor logs nor further vertex slots matter to coherence. -/
theorem of_same_lists {g' : Graph} (h : g.Coherent) (hforward : g'.forward = g.forward)
    (hbackward : g'.backward = g.backward) (hpermanent : g'.permanentBound = g.permanentBound)
    (hle : g.mergedBound ≤ g'.mergedBound) : g'.Coherent := by
  have hlayers : ∀ d, g'.layers d = g.layers d := fun d => by
    cases d
    · exact hforward
    · exact hbackward
  have hlist : ∀ view d v, g'.list view d v = g.list view d v := fun view d v => by
    cases view <;> simp only [list, hlayers]
  have hcount : ∀ view, g.vertexCount view ≤ g'.vertexCount view := fun view => by
    cases view with
    | permanent => exact Nat.le_of_eq hpermanent.symm
    | merged | diffPlus | diffMinus => exact hle
  refine ⟨fun d => ?_, ?_, fun d v hv => ?_, fun view d v => ?_, fun view d v n hn => ?_,
    fun view u v label => ?_, fun view d v n hn => ?_⟩
  · rw [hlayers, hpermanent, h.sizes]
  · rw [hpermanent]
    exact Nat.le_trans h.bounds hle
  · rw [hlayers] at hv
    exact Nat.lt_of_lt_of_le (h.overlay_bounded d v hv) hle
  · rw [hlist]
    exact h.ascending view d v
  · rw [hlist] at hn
    exact h.concrete view d v n hn
  · rw [hlist, hlist]
    exact h.mirrored view u v label
  · rw [hlist] at hn
    have hlt := h.bounded view d v n hn
    exact ⟨Nat.lt_of_lt_of_le hlt.1 (hcount view), Nat.lt_of_lt_of_le hlt.2 (hcount view)⟩

end Coherent

/-- The store is consistent: it is coherent, and the logs are right. -/
structure WellFormed (g : Graph) : Prop extends Coherent g where
  /-- There are no more vertices than vertex numbers. -/
  mergedBound_le : g.mergedBound ≤ UInt32.size
  plus_indexed : g.diffPlus.Indexed
  minus_indexed : g.diffMinus.Indexed
  mem_plus : ∀ e, e ∈ g.diffPlus.toList ↔ g.Has .merged e ∧ ¬ g.Has .permanent e
  mem_minus : ∀ e, e ∈ g.diffMinus.toList ↔ g.Has .permanent e ∧ ¬ g.Has .merged e

namespace WellFormed

variable {g : Graph}

/-! ## Reading -/

theorem vertexCount_le (h : g.WellFormed) (view : View) :
    g.vertexCount view ≤ UInt32.size := by
  have hbounds := h.bounds
  have hsize := h.mergedBound_le
  cases view <;> simp only [vertexCount] <;> omega

/-- The committed lists, vertex by vertex. -/
theorem toList_committed (h : g.WellFormed) (d : Direction) :
    (g.layers d).committed.toList =
      (List.range g.permanentBound).map fun i => g.list .permanent d (UInt32.ofNat i) := by
  have hsize := h.sizes d
  have hle := h.vertexCount_le .permanent
  refine List.ext_getElem (by simp [hsize]) ?_
  intro i hi hi'
  rw [Array.length_toList] at hi
  have hlt : i < UInt32.size := by
    rw [hsize] at hi
    exact Nat.lt_of_lt_of_le hi hle
  rw [List.getElem_map, List.getElem_range, list_of_ne_merged _ (by decide),
    LayeredLists.permanent, UInt32.toNat_ofNat_of_lt' hlt]
  simp [Array.getD_eq_getD_getElem?, hi]

/-! ## The empty graph -/

/-- Where two views agree, the empty log is their difference. -/
theorem mem_empty_log_iff {e : Edge} {p q : Prop} (h : p ↔ q) :
    e ∈ EditLog.empty.toList ↔ p ∧ ¬ q :=
  ⟨fun he => absurd he List.not_mem_nil, fun hand => absurd (h.mp hand.1) hand.2⟩

theorem empty : Graph.empty.WellFormed where
  toCoherent := Coherent.empty
  mergedBound_le := Nat.zero_le _
  plus_indexed := EditLog.Indexed.empty
  minus_indexed := EditLog.Indexed.empty
  mem_plus := fun _ => mem_empty_log_iff (by simp)
  mem_minus := fun _ => mem_empty_log_iff (by simp)

/-! ## Additions -/

theorem mem_plus_stageAdd (h : g.WellFormed) {e : Edge} (habsent : ¬ g.Has .merged e) (e' : Edge) :
    e' ∈ (g.stageAdd e).diffPlus.toList ↔
      (e' = e ∨ g.Has .merged e') ∧ ¬ g.Has .permanent e' := by
  have hplus : (g.stageAdd e).diffPlus =
      if g.diffMinus.contains e then g.diffPlus else g.diffPlus.push e := rfl
  rw [hplus]
  by_cases hminus : e ∈ g.diffMinus.toList
  · -- the deletion is cancelled: the edge is committed, so it is no difference now
    rw [if_pos (h.minus_indexed.contains_iff.mpr hminus), h.mem_plus]
    have hperm := ((h.mem_minus e).mp hminus).1
    constructor
    · intro h
      obtain ⟨hm, hp⟩ := h
      exact ⟨Or.inr hm, hp⟩
    · rintro ⟨rfl | hm, hp⟩
      · exact absurd hperm hp
      · exact ⟨hm, hp⟩
  · rw [if_neg fun hc => hminus (h.minus_indexed.contains_iff.mp hc),
      EditLog.mem_toList_push h.plus_indexed, h.mem_plus]
    have hperm : ¬ g.Has .permanent e := fun hp => hminus ((h.mem_minus e).mpr ⟨hp, habsent⟩)
    constructor
    · rintro (rfl | ⟨hm, hp⟩)
      · exact ⟨Or.inl rfl, hperm⟩
      · exact ⟨Or.inr hm, hp⟩
    · rintro ⟨rfl | hm, hp⟩
      · exact Or.inl rfl
      · exact Or.inr ⟨hm, hp⟩

theorem stageAdd (h : g.WellFormed) {e : Edge} (hlabel : e.label.isAny = false)
    (habsent : ¬ g.Has .merged e) : (g.stageAdd e).WellFormed where
  toCoherent := h.toCoherent.stageAdd hlabel habsent
  mergedBound_le := by
    have := h.mergedBound_le
    have := e.source.toNat_lt_size
    have := e.target.toNat_lt_size
    rw [Coherent.mergedBound_stageAdd]
    omega
  plus_indexed := by
    show EditLog.Indexed (if g.diffMinus.contains e then g.diffPlus else g.diffPlus.push e)
    split
    · exact h.plus_indexed
    · exact h.plus_indexed.push e
  minus_indexed := h.minus_indexed.erase e
  mem_plus := fun e' => by
    rw [mem_plus_stageAdd h habsent, has_stageAdd, has_stageAdd]
    simp
  mem_minus := fun e' => by
    have hminus : (g.stageAdd e).diffMinus = g.diffMinus.erase e := rfl
    rw [hminus, EditLog.mem_toList_erase h.minus_indexed, h.mem_minus, has_stageAdd, has_stageAdd]
    simp only [true_and, not_or, reduceCtorEq, false_and, false_or]
    exact ⟨fun ⟨hne, hp, hm⟩ => ⟨hp, hne, hm⟩, fun ⟨hp, hne, hm⟩ => ⟨hne, hp, hm⟩⟩

/-! ## Deletions -/

theorem mem_minus_stageDelete (h : g.WellFormed) {e : Edge} (hpresent : g.Has .merged e)
    (e' : Edge) : e' ∈ (g.stageDelete e).diffMinus.toList ↔
      g.Has .permanent e' ∧ ¬ (e' ≠ e ∧ g.Has .merged e') := by
  have hminus : (g.stageDelete e).diffMinus =
      if g.diffPlus.contains e then g.diffMinus else g.diffMinus.push e := rfl
  rw [hminus]
  by_cases hplus : e ∈ g.diffPlus.toList
  · -- the addition is cancelled: the edge is not committed, so it is no difference now
    rw [if_pos (h.plus_indexed.contains_iff.mpr hplus), h.mem_minus]
    have hperm := ((h.mem_plus e).mp hplus).2
    constructor
    · intro h
      obtain ⟨hp, hm⟩ := h
      exact ⟨hp, fun hand => hm hand.2⟩
    · intro h
      obtain ⟨hp, hand⟩ := h
      refine ⟨hp, fun hm => hand ⟨?_, hm⟩⟩
      rintro rfl
      exact hperm hp
  · rw [if_neg fun hc => hplus (h.plus_indexed.contains_iff.mp hc),
      EditLog.mem_toList_push h.minus_indexed, h.mem_minus]
    have hperm : g.Has .permanent e :=
      Decidable.not_not.mp fun hp => hplus ((h.mem_plus e).mpr ⟨hpresent, hp⟩)
    constructor
    · rintro (rfl | ⟨hp, hm⟩)
      · exact ⟨hperm, fun hand => hand.1 rfl⟩
      · exact ⟨hp, fun hand => hm hand.2⟩
    · intro h
      obtain ⟨hp, hand⟩ := h
      by_cases heq : e' = e
      · exact Or.inl heq
      · exact Or.inr ⟨hp, fun hm => hand ⟨heq, hm⟩⟩

theorem stageDelete (h : g.WellFormed) {e : Edge} (hpresent : g.Has .merged e) :
    (g.stageDelete e).WellFormed where
  toCoherent := h.toCoherent.stageDelete hpresent
  mergedBound_le := h.mergedBound_le
  plus_indexed := h.plus_indexed.erase e
  minus_indexed := by
    show EditLog.Indexed (if g.diffPlus.contains e then g.diffMinus else g.diffMinus.push e)
    split
    · exact h.minus_indexed
    · exact h.minus_indexed.push e
  mem_plus := fun e' => by
    have hplus : (g.stageDelete e).diffPlus = g.diffPlus.erase e := rfl
    rw [hplus, EditLog.mem_toList_erase h.plus_indexed, h.mem_plus, h.has_stageDelete,
      h.has_stageDelete]
    simp only [true_and, reduceCtorEq, false_and, not_false_eq_true, and_assoc, ne_eq]
  mem_minus := fun e' => by
    rw [mem_minus_stageDelete h hpresent, h.has_stageDelete, h.has_stageDelete]
    simp

/-! ## Closing a batch -/

theorem folded (h : g.WellFormed) : g.folded.WellFormed where
  toCoherent := h.toCoherent.folded
  mergedBound_le := h.mergedBound_le
  plus_indexed := EditLog.Indexed.empty
  minus_indexed := EditLog.Indexed.empty
  mem_plus := fun _ => mem_empty_log_iff (h.has_folded.trans h.has_folded.symm)
  mem_minus := fun _ => mem_empty_log_iff (h.has_folded.trans h.has_folded.symm)

theorem discard (h : g.WellFormed) : g.discard.1.WellFormed where
  toCoherent := h.toCoherent.discard
  mergedBound_le := Nat.le_trans h.bounds h.mergedBound_le
  plus_indexed := EditLog.Indexed.empty
  minus_indexed := EditLog.Indexed.empty
  mem_plus := fun _ => mem_empty_log_iff (Coherent.has_discard.trans Coherent.has_discard.symm)
  mem_minus := fun _ => mem_empty_log_iff (Coherent.has_discard.trans Coherent.has_discard.symm)

end WellFormed
end Graph
end DeltaMatch
