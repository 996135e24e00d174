import DeltaMatch.Proofs.Graph.Pending
import Mathlib.Data.List.Induction

/-!
# The logs along a history

A log holds the difference of the two states, and holds it in the order of the edits: an
edge stands where the edit put it since which it has been pending. An edit that cancels
another takes an edge out; to make it pending again puts it at the end.
-/

namespace DeltaMatch
namespace Graph

variable {g start : Graph} {ops : List Op} {op : Op} {e : Edge} {i : Nat}

/-! ## Positions in a history -/

/-- The graph after the first requests of a history. -/
def after (start : Graph) (ops : List Op) (i : Nat) : Graph := (ops.take i).foldl step start

/-- The edge is in the merged view and not in the permanent one. -/
def AwaitsAddition (g : Graph) (e : Edge) : Prop := g.Has .merged e ∧ ¬ g.Has .permanent e

/-- The edge is in the permanent view and not in the merged one. -/
def AwaitsDeletion (g : Graph) (e : Edge) : Prop := g.Has .permanent e ∧ ¬ g.Has .merged e

/-- The request at a position is the edit that made the edge pending, and the edge has been
pending ever since. -/
def PendingSince (awaits : Graph → Edge → Prop) (edit : Edge → Op) (start : Graph)
    (ops : List Op) (i : Nat) (e : Edge) : Prop :=
  ops[i]? = some (edit e) ∧ ¬ awaits (start.after ops i) e ∧
    ∀ j, i < j → j ≤ ops.length → awaits (start.after ops j) e

/-- The edges are listed by the positions of the edits that made them pending. -/
def InEditOrder (awaits : Graph → Edge → Prop) (edit : Edge → Op) (start : Graph)
    (ops : List Op) (edges : List Edge) : Prop :=
  ∃ positions : List Nat, positions.Pairwise (· < ·) ∧
    List.Forall₂ (PendingSince awaits edit start ops) positions edges

theorem after_length (start : Graph) (ops : List Op) :
    start.after ops ops.length = ops.foldl step start := by
  rw [after, List.take_length]

theorem after_snoc (h : i ≤ ops.length) : start.after (ops ++ [op]) i = start.after ops i := by
  rw [after, after, List.take_append_of_le_length h]

namespace PendingSince

variable {awaits : Graph → Edge → Prop} {edit : Edge → Op}

theorem lt_length (h : PendingSince awaits edit start ops i e) : i < ops.length :=
  (List.getElem?_eq_some_iff.mp h.1).1

/-- An edge that is still pending has been so since the same edit. -/
theorem snoc (h : PendingSince awaits edit start ops i e)
    (hstill : awaits ((ops ++ [op]).foldl step start) e) :
    PendingSince awaits edit start (ops ++ [op]) i e := by
  have hlt := h.lt_length
  obtain ⟨hedit, hbefore, hsince⟩ := h
  refine ⟨by rw [List.getElem?_append_left hlt, hedit], ?_, fun j hij hj => ?_⟩
  · rwa [after_snoc (Nat.le_of_lt hlt)]
  · rw [List.length_append, List.length_singleton] at hj
    rcases Nat.lt_or_eq_of_le hj with hj | rfl
    · rw [after_snoc (by omega)]
      exact hsince j hij (by omega)
    · rwa [← after_length, List.length_append, List.length_singleton] at hstill

/-- An edge that was not pending has been so since the last edit. -/
theorem last (hbefore : ¬ awaits (ops.foldl step start) e)
    (hnow : awaits ((ops ++ [edit e]).foldl step start) e) :
    PendingSince awaits edit start (ops ++ [edit e]) ops.length e := by
  refine ⟨by simp, ?_, fun j hij hj => ?_⟩
  · rwa [after_snoc (Nat.le_refl _), after_length]
  · rw [List.length_append, List.length_singleton] at hj
    have hj : j = (ops ++ [edit e]).length := by
      rw [List.length_append, List.length_singleton]
      omega
    rwa [hj, after_length]

end PendingSince

/-- What is related to a list piece by piece is so to each part of it. -/
theorem exists_forall₂_of_sublist {α β : Type} {R S : α → β → Prop} {xs : List α}
    {ys ys' : List β} (h : List.Forall₂ R xs ys) (hsub : ys'.Sublist ys)
    (himp : ∀ x, ∀ y ∈ ys', R x y → S x y) :
    ∃ xs', xs'.Sublist xs ∧ List.Forall₂ S xs' ys' := by
  induction h generalizing ys' with
  | nil =>
    cases hsub
    exact ⟨[], .slnil, .nil⟩
  | @cons x y xs ys hR _ ih =>
    cases hsub with
    | cons _ hsub =>
      obtain ⟨xs', hxs, hall⟩ := ih hsub himp
      exact ⟨xs', hxs.cons _, hall⟩
    | cons_cons _ hsub =>
      obtain ⟨xs', hxs, hall⟩ := ih hsub fun x' y' hy' => himp x' y' (List.mem_cons_of_mem _ hy')
      exact ⟨x :: xs', hxs.cons_cons _, .cons (himp x y List.mem_cons_self hR) hall⟩

/-! ## What a request does to a log -/

/-- A log is cut down, or gets one more edge at its end. -/
def Shifts (edit : Edge → Op) (op : Op) (before after : List Edge) : Prop :=
  after.Sublist before ∨ ∃ e, op = edit e ∧ e ∉ before ∧ after = before ++ [e]

theorem shifts_push {log : EditLog} (h : log.Indexed) (edit : Edge → Op) (e : Edge)
    (cancels : Bool) :
    Shifts edit (edit e) log.toList (if cancels then log else log.push e).toList := by
  cases cancels with
  | true => exact Or.inl (List.Sublist.refl _)
  | false =>
    rw [if_neg (by decide), EditLog.toList_push h]
    split
    · exact Or.inl (List.Sublist.refl _)
    · rename_i he
      exact Or.inr ⟨e, rfl, he, rfl⟩

/-- A request that is no edit only cuts the logs down. -/
theorem logs_of_not_edit (hop : op.isEdit = false) :
    (g.step op).diffPlus.toList.Sublist g.diffPlus.toList ∧
      (g.step op).diffMinus.toList.Sublist g.diffMinus.toList := by
  cases op with
  | add | delete => cases hop
  | label v l =>
    obtain ⟨labels, heq⟩ := step_label g v l
    rw [heq]
    exact ⟨.refl _, .refl _⟩
  | commit =>
    rcases commit_cases g with ⟨-, heq⟩ | ⟨-, heq⟩
    · rw [show g.step .commit = g.folded from heq]
      exact ⟨List.nil_sublist _, List.nil_sublist _⟩
    · rw [show g.step .commit = g from heq]
      exact ⟨.refl _, .refl _⟩
  | discard => exact ⟨List.nil_sublist _, List.nil_sublist _⟩

theorem plus_step (h : g.WellFormed) (op : Op) :
    Shifts .add op g.diffPlus.toList (g.step op).diffPlus.toList := by
  cases op with
  | add e =>
    rcases step_add_cases g e with heq | ⟨-, -, heq⟩
    · rw [heq]
      exact Or.inl (.refl _)
    · rw [heq]
      exact shifts_push h.plus_indexed .add e (g.diffMinus.contains e)
  | delete e =>
    rcases step_delete_cases g e with heq | ⟨-, heq⟩
    · rw [heq]
      exact Or.inl (.refl _)
    · have hplus : (g.stageDelete e).diffPlus = g.diffPlus.erase e := rfl
      rw [heq, hplus, EditLog.toList_erase h.plus_indexed]
      exact Or.inl List.erase_sublist
  | label | commit | discard => exact Or.inl (logs_of_not_edit rfl).1

theorem minus_step (h : g.WellFormed) (op : Op) :
    Shifts .delete op g.diffMinus.toList (g.step op).diffMinus.toList := by
  cases op with
  | add e =>
    rcases step_add_cases g e with heq | ⟨-, -, heq⟩
    · rw [heq]
      exact Or.inl (.refl _)
    · have hminus : (g.stageAdd e).diffMinus = g.diffMinus.erase e := rfl
      rw [heq, hminus, EditLog.toList_erase h.minus_indexed]
      exact Or.inl List.erase_sublist
  | delete e =>
    rcases step_delete_cases g e with heq | ⟨-, heq⟩
    · rw [heq]
      exact Or.inl (.refl _)
    · rw [heq]
      exact shifts_push h.minus_indexed .delete e (g.diffPlus.contains e)
  | label | commit | discard => exact Or.inl (logs_of_not_edit rfl).2

/-! ## The logs along a history -/

section Run

variable {awaits : Graph → Edge → Prop} {edit : Edge → Op}

theorem lt_length_of_forall₂ {positions : List Nat} {edges : List Edge}
    (h : List.Forall₂ (PendingSince awaits edit start ops) positions edges) :
    ∀ i ∈ positions, i < ops.length := by
  induction h with
  | nil => exact fun i hi => (nomatch hi)
  | cons hR _ ih => exact List.forall_mem_cons.mpr ⟨hR.lt_length, ih⟩

/-- One more request: the edges that stay keep their positions, and an edge that comes has
the position of the request, beyond all others. -/
theorem InEditOrder.snoc {before now : List Edge} (h : InEditOrder awaits edit start ops before)
    (hshift : Shifts edit op before now)
    (hbefore : ∀ e, awaits (ops.foldl step start) e → e ∈ before)
    (hnow : ∀ e ∈ now, awaits ((ops ++ [op]).foldl step start) e) :
    InEditOrder awaits edit start (ops ++ [op]) now := by
  obtain ⟨positions, hsorted, hall⟩ := h
  rcases hshift with hsub | ⟨e, rfl, hnew, rfl⟩
  · obtain ⟨kept, hkept, hall⟩ := exists_forall₂_of_sublist hall hsub
      fun i e he hsince => hsince.snoc (hnow e he)
    exact ⟨kept, hsorted.sublist hkept, hall⟩
  · obtain ⟨hnow, hlast⟩ := List.forall_mem_append.mp hnow
    have hlast : PendingSince awaits edit start (ops ++ [edit e]) ops.length e :=
      .last (fun h => hnew (hbefore e h)) (hlast e List.mem_cons_self)
    obtain ⟨kept, hkept, hstill⟩ := exists_forall₂_of_sublist hall (.refl before)
      fun i e' he' hsince => hsince.snoc (hnow e' he')
    have hlt : ∀ i ∈ kept, ∀ j ∈ [ops.length], i < j := fun i hi j hj => by
      rw [List.mem_singleton.mp hj]
      exact lt_length_of_forall₂ hall i (hkept.subset hi)
    exact ⟨kept ++ [ops.length],
      List.pairwise_append.mpr ⟨hsorted.sublist hkept, List.pairwise_singleton _ _, hlt⟩,
      List.rel_append hstill (.cons hlast .nil)⟩

/-- **A log that shifts with each request lists its edges in the order of the edits.** -/
theorem inEditOrder_run (log : Graph → List Edge) (h : start.WellFormed) (hstart : log start = [])
    (hmem : ∀ g : Graph, g.WellFormed → ∀ e, e ∈ log g ↔ awaits g e)
    (hstep : ∀ g : Graph, g.WellFormed → ∀ op, Shifts edit op (log g) (log (g.step op)))
    (ops : List Op) : InEditOrder awaits edit start ops (log (ops.foldl step start)) := by
  induction ops using List.reverseRecOn with
  | nil =>
    rw [List.foldl_nil, hstart]
    exact ⟨[], .nil, .nil⟩
  | append_singleton ops op ih =>
    have hbefore := h.foldl ops
    have hnow := h.foldl (ops ++ [op])
    refine ih.snoc ?_ (fun e => (hmem _ hbefore e).mpr) fun e => (hmem _ hnow e).mp
    rw [List.foldl_concat]
    exact hstep _ hbefore op

end Run

/-! ## The answers of the edits -/

theorem add_true_iff (e : Edge) :
    (∃ g', g.add e = .ok (g', true)) ↔ e.label.isAny = false ∧ ¬ g.Has .merged e := by
  by_cases hany : e.label.isAny = true
  · simp [add, hany]
  · rw [Bool.not_eq_true] at hany
    rw [← hasEdge_iff hany]
    cases hhas : g.hasEdge e <;> simp [add, hany, hhas]

theorem delete_true_iff (h : g.WellFormed) (e : Edge) :
    (∃ g', g.delete e = .ok (g', true)) ↔ g.Has .merged e := by
  by_cases hany : e.label.isAny = true
  · -- the wildcard is refused, and never stored
    have habsent : ¬ g.Has .merged e := fun he =>
      Bool.eq_false_iff.mp (h.concrete_of_has he) hany
    simp [delete, hany, habsent]
  · rw [Bool.not_eq_true] at hany
    rw [← hasEdge_iff hany]
    cases hhas : g.hasEdge e <;> simp [delete, hany, hhas]

theorem add_of_absent (hlabel : e.label.isAny = false) (habsent : ¬ g.Has .merged e) :
    g.add e = .ok (g.stageAdd e, true) := by
  rw [add, if_neg (by simp [hlabel]), if_neg (mt (hasEdge_iff hlabel).mp habsent)]

theorem delete_of_present (hlabel : e.label.isAny = false) (hpresent : g.Has .merged e) :
    g.delete e = .ok (g.stageDelete e, true) := by
  rw [delete, if_neg (by simp [hlabel]), if_pos ((hasEdge_iff hlabel).mpr hpresent)]

/-- An addition that finds its edge present returns the graph as it was. -/
theorem eq_of_add_false {g' : Graph} (h : g.add e = .ok (g', false)) : g' = g := by
  unfold add at h
  split at h
  · cases h
  split at h
  · cases h
    rfl
  · cases h

/-- So does a deletion that finds its edge absent. -/
theorem eq_of_delete_false {g' : Graph} (h : g.delete e = .ok (g', false)) : g' = g := by
  unfold delete at h
  split at h
  · cases h
  split at h
  · cases h
  · cases h
    rfl

theorem step_add_of_not_true (h : ∀ g', g.add e ≠ .ok (g', true)) : g.step (.add e) = g := by
  cases hadd : g.add e with
  | error err => rw [step, hadd]
  | ok answer =>
    obtain ⟨g', _ | _⟩ := answer
    · rw [step, hadd]
      exact eq_of_add_false hadd
    · exact absurd hadd (h g')

theorem step_delete_of_not_true (h : ∀ g', g.delete e ≠ .ok (g', true)) :
    g.step (.delete e) = g := by
  cases hdelete : g.delete e with
  | error err => rw [step, hdelete]
  | ok answer =>
    obtain ⟨g', _ | _⟩ := answer
    · rw [step, hdelete]
      exact eq_of_delete_false hdelete
    · exact absurd hdelete (h g')

/-- **The logs are exact.** After every history each log holds the difference of the two
states, nothing twice, in the order of the edits that made its edges pending. An edit
answers `true` exactly when it has an effect: an addition when its edge is absent and its
label is no wildcard, a deletion when its edge is present. An edit that answers anything
else leaves the graph as it was. -/
theorem logs_exact {start : Graph} (horigin : Origin start) (ops : List Op) :
    let g := ops.foldl step start
    ((∀ e, e ∈ g.diffPlus.toList ↔ g.Has .merged e ∧ ¬ g.Has .permanent e) ∧
      g.diffPlus.toList.Nodup ∧
      InEditOrder AwaitsAddition .add start ops g.diffPlus.toList) ∧
    ((∀ e, e ∈ g.diffMinus.toList ↔ g.Has .permanent e ∧ ¬ g.Has .merged e) ∧
      g.diffMinus.toList.Nodup ∧
      InEditOrder AwaitsDeletion .delete start ops g.diffMinus.toList) ∧
    ∀ e, ((∃ g', g.add e = .ok (g', true)) ↔ e.label.isAny = false ∧ ¬ g.Has .merged e) ∧
      ((∃ g', g.delete e = .ok (g', true)) ↔ g.Has .merged e) ∧
      ((∀ g', g.add e ≠ .ok (g', true)) → g.step (.add e) = g) ∧
      ((∀ g', g.delete e ≠ .ok (g', true)) → g.step (.delete e) = g) := by
  intro g
  have hstart : start.WellFormed := .origin horigin
  have h : g.WellFormed := hstart.foldl ops
  refine ⟨⟨h.mem_plus, h.plus_indexed.nodup, ?_⟩, ⟨h.mem_minus, h.minus_indexed.nodup, ?_⟩,
    fun e => ⟨add_true_iff e, delete_true_iff h e, step_add_of_not_true,
      step_delete_of_not_true⟩⟩
  · exact inEditOrder_run (fun g => g.diffPlus.toList) hstart horigin.idle.plus
      (fun _ h => h.mem_plus) (fun _ h => plus_step h) ops
  · exact inEditOrder_run (fun g => g.diffMinus.toList) hstart horigin.idle.minus
      (fun _ h => h.mem_minus) (fun _ h => minus_step h) ops

/-- Two committed edges are deleted; the first deletion is cancelled and made again. -/
theorem logs_exact_cancelled :
    Origin .empty ∧
      let ops : List Op := [.add ⟨0, 1, ⟨2⟩⟩, .add ⟨3, 1, ⟨2⟩⟩, .commit, .delete ⟨0, 1, ⟨2⟩⟩,
        .delete ⟨3, 1, ⟨2⟩⟩, .add ⟨0, 1, ⟨2⟩⟩, .delete ⟨0, 1, ⟨2⟩⟩]
      let log := (ops.foldl step .empty).diffMinus.toList
      log.Nodup ∧ InEditOrder AwaitsDeletion .delete .empty ops log :=
  ⟨.empty, (logs_exact .empty _).2.1.2⟩

/-- The edge is absent, but its label is the wildcard: the addition is turned down. -/
theorem add_wildcard_refused :
    ¬ ((∃ g', Graph.empty.add ⟨0, 1, .any⟩ = .ok (g', true)) ↔
      ¬ Graph.empty.Has .merged ⟨0, 1, .any⟩) := by
  rw [add_true_iff]
  intro h
  have habsent : ¬ Graph.empty.Has .merged ⟨0, 1, .any⟩ := by simp
  exact absurd (h.mpr habsent).1 (by decide)

end Graph
end DeltaMatch
