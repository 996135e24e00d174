import DeltaMatch.Proofs.EditLog

/-!
# Edit logs along a history

A plain list without repetitions is the reference: an absent edge goes to its end, and a
removed one leaves the order of the others alone. A log gives the answers of the list and stands
for it at every point of its history, whether or not its slots have just been packed. Packing
keeps the empty slots few: there are never 64 more slots than twice the logged edges.
-/

namespace DeltaMatch
namespace EditLog

/-- A request to a log. -/
inductive Op where
  | append (e : Edge)
  | remove (e : Edge)
  | clear

/-- The log after a request, and its answer. Forgetting everything is not answered. -/
def step (log : EditLog) : Op → EditLog × Option Bool
  | .append e => ((log.append e).1, some (log.append e).2)
  | .remove e => ((log.remove e).1, some (log.remove e).2)
  | .clear => (.empty, none)

/-- The list after a request, and its answer. -/
def listStep (edges : List Edge) : Op → List Edge × Option Bool
  | .append e => if e ∈ edges then (edges, some false) else (edges ++ [e], some true)
  | .remove e => if e ∈ edges then (edges.erase e, some true) else (edges, some false)
  | .clear => ([], none)

/-- What requests make of a state, and their answers. -/
def run {σ : Type} (step : σ → Op → σ × Option Bool) (s : σ) : List Op → σ × List (Option Bool)
  | [] => (s, [])
  | op :: rest =>
    let (s, answer) := step s op
    let (s, answers) := run step s rest
    (s, answer :: answers)

/-- The log holds the edges of the list in their order and answers for them. Its index names, for
each of them and for no other edge, the one slot that holds it. -/
structure StandsFor (log : EditLog) (edges : List Edge) : Prop where
  toList : log.toList = edges
  nodup : edges.Nodup
  contains_iff : ∀ e, log.contains e = true ↔ e ∈ edges
  size : log.size = edges.length
  isEmpty_iff : log.isEmpty = true ↔ edges = []
  indexed : log.Indexed

/-- The empty slots are few. -/
def Compact (log : EditLog) : Prop := log.slots.size ≤ 2 * log.size + (packingThreshold - 1)

variable {log : EditLog} {edges : List Edge} {e : Edge} {i : Nat}

/-! ## What a log stands for -/

theorem Indexed.standsFor (h : log.Indexed) : log.StandsFor log.toList where
  toList := rfl
  nodup := h.nodup
  contains_iff := fun _ => h.contains_iff
  size := h.size_eq
  isEmpty_iff := h.isEmpty_iff
  indexed := h

theorem standsFor_iff : log.StandsFor edges ↔ log.Indexed ∧ log.toList = edges := by
  constructor
  · exact fun h => ⟨h.indexed, h.toList⟩
  · rintro ⟨h, rfl⟩
    exact h.standsFor

namespace StandsFor

theorem empty : StandsFor .empty [] := standsFor_iff.mpr ⟨.empty, rfl⟩

/-- A removal first empties the slot of the edge. -/
theorem vacate (h : log.StandsFor edges) (hi : log.positions[e]? = some i) :
    (log.vacate e i).StandsFor (edges.erase e) := by
  have hslot := (h.indexed e i).mp hi
  exact standsFor_iff.mpr ⟨h.indexed.vacate hslot, by rw [toList_vacate h.indexed hslot, h.toList]⟩

/-- **Packing renumbers the slots** and nothing else. -/
theorem pack (h : log.StandsFor edges) : log.pack.StandsFor edges :=
  standsFor_iff.mpr ⟨h.indexed.pack, by rw [toList_pack, h.toList]⟩

theorem packIfSparse (h : log.StandsFor edges) : log.packIfSparse.StandsFor edges :=
  standsFor_iff.mpr ⟨h.indexed.packIfSparse, by rw [toList_packIfSparse, h.toList]⟩

theorem mem_positions (h : log.StandsFor edges) : e ∈ log.positions ↔ e ∈ edges := by
  rw [← h.contains_iff, EditLog.contains, Std.HashMap.contains_iff_mem]

end StandsFor

/-! ## Empty slots -/

theorem compact_empty : Compact .empty := by simp [Compact, EditLog.empty]

/-- **Packing keeps the slots few**, however many there were. -/
theorem compact_packIfSparse (h : log.Indexed) : log.packIfSparse.Compact := by
  unfold EditLog.packIfSparse
  split
  · have hslots : log.pack.slots.size = log.pack.size := by
      rw [h.pack.size_eq, toList_pack]
      simp [EditLog.pack]
    rw [Compact, hslots]
    omega
  · rename_i hfew
    rw [Compact]
    simp only [packingThreshold] at hfew ⊢
    omega

/-! ## Requests -/

theorem append_spec (h : log.StandsFor edges) (hc : log.Compact) (e : Edge) :
    (log.step (.append e)).2 = (listStep edges (.append e)).2 ∧
      (log.step (.append e)).1.StandsFor (listStep edges (.append e)).1 ∧
        (log.step (.append e)).1.Compact := by
  by_cases he : e ∈ edges
  · rw [step, append_of_contains ((h.contains_iff e).mpr he), listStep, if_pos he]
    exact ⟨rfl, h, hc⟩
  · have hnew : ¬ log.contains e = true := mt (h.contains_iff e).mp he
    have hindexed := h.indexed.push e
    have hlist := toList_push h.indexed e
    rw [push_of_not_contains hnew] at hindexed hlist
    rw [h.toList, if_neg he] at hlist
    rw [step, append_of_not_contains hnew, listStep, if_neg he]
    refine ⟨rfl, standsFor_iff.mpr ⟨hindexed, hlist⟩, ?_⟩
    -- one more slot, and one more edge
    simp only [Compact, EditLog.size, Array.size_push, Std.HashMap.size_insert] at hc ⊢
    rw [if_neg (mt h.mem_positions.mp he)]
    omega

theorem remove_spec (h : log.StandsFor edges) (hc : log.Compact) (e : Edge) :
    (log.step (.remove e)).2 = (listStep edges (.remove e)).2 ∧
      (log.step (.remove e)).1.StandsFor (listStep edges (.remove e)).1 ∧
        (log.step (.remove e)).1.Compact := by
  by_cases he : e ∈ edges
  · obtain ⟨i, hi⟩ := Option.isSome_iff_exists.mp
      (Std.HashMap.mem_iff_isSome_getElem?.mp (h.mem_positions.mpr he))
    have hvacated := h.vacate hi
    rw [step, remove_of_position hi, listStep, if_pos he]
    exact ⟨rfl, hvacated.packIfSparse, compact_packIfSparse hvacated.indexed⟩
  · have hi : log.positions[e]? = none :=
      Std.HashMap.getElem?_eq_none (mt h.mem_positions.mp he)
    rw [step, remove_of_absent hi, listStep, if_neg he]
    exact ⟨rfl, h, hc⟩

/-- **One request**: the answer is that of the list, and the log stands for the list after it. -/
theorem step_spec (h : log.StandsFor edges) (hc : log.Compact) (op : Op) :
    (log.step op).2 = (listStep edges op).2 ∧
      (log.step op).1.StandsFor (listStep edges op).1 ∧ (log.step op).1.Compact := by
  cases op with
  | append e => exact append_spec h hc e
  | remove e => exact remove_spec h hc e
  | clear => exact ⟨rfl, .empty, compact_empty⟩

/-- **A whole history**, from any log that stands for a list. -/
theorem run_spec (h : log.StandsFor edges) (hc : log.Compact) (ops : List Op) :
    (run step log ops).2 = (run listStep edges ops).2 ∧
      (run step log ops).1.StandsFor (run listStep edges ops).1 ∧
        (run step log ops).1.Compact := by
  induction ops generalizing log edges with
  | nil => exact ⟨rfl, h, hc⟩
  | cons op rest ih =>
    obtain ⟨hanswer, hstands, hcompact⟩ := step_spec h hc op
    obtain ⟨hanswers, hrest⟩ := ih hstands hcompact
    simp only [run, hanswer, hanswers]
    exact ⟨trivial, hrest⟩

/-- **A log is an ordered set.** After every history a log has given the answers of the plain list
and stands for it. So does a log whose slot has just been emptied, both before its slots are
packed and after. The slots never outnumber twice the logged edges by more than 63. -/
theorem refines_list (ops : List Op) :
    (run step .empty ops).2 = (run listStep [] ops).2 ∧
      (run step .empty ops).1.StandsFor (run listStep [] ops).1 ∧
      (∀ e i, (run step .empty ops).1.positions[e]? = some i →
        ((run step .empty ops).1.vacate e i).StandsFor ((run listStep [] ops).1.erase e) ∧
        ((run step .empty ops).1.vacate e i).pack.StandsFor ((run listStep [] ops).1.erase e)) ∧
      (run step .empty ops).1.slots.size ≤ 2 * (run step .empty ops).1.size + 63 := by
  obtain ⟨hanswers, hstands, hcompact⟩ := run_spec .empty compact_empty ops
  exact ⟨hanswers, hstands, fun e i hi => ⟨hstands.vacate hi, (hstands.vacate hi).pack⟩, hcompact⟩

/-- Sixty-six edges, of which all but two are removed again, so that the slots are packed on the
way. A removed edge comes back behind an older one, and an edge is removed twice. -/
theorem refines_list_packed :
    let edge (n : Nat) : Edge := ⟨n.toUInt32, 0, .plain⟩
    let ops : List Op := (List.range 66).map (.append ∘ edge) ++
      (List.range 64).map (.remove ∘ edge) ++
        [.append (edge 3), .remove (edge 64), .remove (edge 64)]
    let log := (run step .empty ops).1
    (run step .empty ops).2.drop 130 = [some true, some true, some false] ∧
      log.toList = [edge 65, edge 3] ∧ log.slots.size ≤ 67 ∧
        ∃ i, log.positions[edge 3]? = some i ∧ (log.vacate (edge 3) i).toList = [edge 65] ∧
          (log.vacate (edge 3) i).pack.toList = [edge 65] := by
  intro edge ops log
  obtain ⟨hanswers, hstands, hvacated, hslots⟩ := refines_list ops
  have hlist : run listStep [] ops = ([edge 65, edge 3], (run listStep [] ops).2) := by
    decide +kernel
  rw [hlist] at hstands hvacated
  obtain ⟨i, hi⟩ := Option.isSome_iff_exists.mp (Std.HashMap.mem_iff_isSome_getElem?.mp
    (hstands.mem_positions.mpr (show edge 3 ∈ [edge 65, edge 3] by decide)))
  obtain ⟨hbefore, hafter⟩ := hvacated (edge 3) i hi
  refine ⟨?_, hstands.toList, ?_, i, hi, hbefore.toList, hafter.toList⟩
  · rw [hanswers]
    decide +kernel
  · rw [hstands.size] at hslots
    exact hslots

end EditLog
end DeltaMatch
