import DeltaMatch.Proofs.Pattern.Connectivity
import Mathlib.Data.Nat.Find

/-!
# Variable orders

From an edge the planner lists the variables greedily, the best linked one next. This leads
to an order of all variables exactly when each of them can be reached from the edge: the
choice never gets stuck on a connected pattern and never hides a disconnected one.
-/

namespace DeltaMatch
namespace Pattern

variable {p : Pattern} {listed ordering : List Nat} {edge missing v : Nat} {e : PatternEdge}
  {err : PlanError}

/-! ## The greedy choice -/

/-- Past the first few, each variable of the ordering is the best linked one among those that
are not listed before it. -/
def Greedy (p : Pattern) (first : Nat) (ordering : List Nat) : Prop :=
  ∀ i v, first ≤ i → ordering[i]? = some v → p.BestLinked (ordering.take i) v

theorem greedy_of_completeOrdering (h : p.completeOrdering missing listed = .ok ordering) :
    listed <+: ordering ∧ p.Greedy listed.length ordering := by
  induction missing generalizing listed with
  | zero =>
    cases h
    refine ⟨List.prefix_rfl, fun i v hi hv => ?_⟩
    rw [List.getElem?_eq_none hi] at hv
    cases hv
  | succ missing ih =>
    obtain ⟨u, hnext, h⟩ := Growth.completeOrdering_succ_eq_ok h
    obtain ⟨hbegins, hgreedy⟩ := ih h
    rw [List.length_append, List.length_singleton] at hgreedy
    refine ⟨(List.prefix_append _ _).trans hbegins, fun i v hi hv => ?_⟩
    rcases Nat.lt_or_eq_of_le hi with hlt | rfl
    · exact hgreedy i v hlt hv
    -- right behind the listed variables stands the one that was chosen
    · obtain ⟨rest, rfl⟩ := hbegins
      rw [List.append_assoc] at hv ⊢
      rw [List.getElem?_append_right (Nat.le_refl _), Nat.sub_self] at hv
      cases hv
      rw [List.take_left]
      exact bestLinked_of_nextVar? hnext

/-! ## What can be wrong -/

/-- Why there is no variable order from an edge. What is wrong first is what is reported. -/
inductive OrderingFault (p : Pattern) (edge : Nat) : PlanError → Prop
  | emptyQuery : p.edges = [] → OrderingFault p edge .emptyQuery
  /-- The first edge that joins a variable to itself. -/
  | selfLoop {i : Nat} {e : PatternEdge} {name : String} : p.edges[i]? = some e →
      e.source = e.target →
      (∀ j e', j < i → p.edges[j]? = some e' → e'.source ≠ e'.target) →
      p.vars[e.source]? = some name → OrderingFault p edge (.selfLoop name)
  | unknownEdge : p.edges ≠ [] → p.Loopless → p.edges.length ≤ edge →
      OrderingFault p edge (.unknownEdge edge)
  /-- The first variable that cannot be reached from the edge. -/
  | disconnected {e : PatternEdge} {v : Nat} {name : String} : p.Loopless →
      p.edges[edge]? = some e → ¬ p.ReachedFrom e v → (∀ w < v, p.ReachedFrom e w) →
      p.vars[v]? = some name → OrderingFault p edge (.disconnected name)

theorem vars_eq_some_varName (hv : v < p.vars.length) : p.vars[v]? = some (p.varName v) := by
  rw [varName, List.getD_eq_getElem?_getD, List.getElem?_eq_getElem hv, Option.getD_some]

theorem varName_eq {name : String} (h : p.vars[v]? = some name) : p.varName v = name := by
  rw [varName, List.getD_eq_getElem?_getD, h, Option.getD_some]

theorem headD_unlisted (hv : v < p.vars.length) (hnot : v ∉ listed)
    (hlisted : ∀ w < v, w ∈ listed) : (p.unlisted listed).headD 0 = v := by
  have hhead : (p.unlisted listed).head? = some v := by
    rw [unlisted, List.head?_filter, List.find?_range_eq_some]
    simpa [hnot, hv] using hlisted
  rw [List.headD_eq_head?_getD, hhead, Option.getD_some]

theorem exists_first_unreached (h : ¬ ∀ v < p.vars.length, p.ReachedFrom e v) :
    ∃ v < p.vars.length, ¬ p.ReachedFrom e v ∧ ∀ w < v, p.ReachedFrom e w := by
  classical
  push Not at h
  obtain ⟨hv, hnot⟩ := Nat.find_spec h
  refine ⟨Nat.find h, hv, hnot, fun w hw => ?_⟩
  by_contra hw'
  exact Nat.find_min h hw ⟨Nat.lt_trans hw hv, hw'⟩

/-- The ordering from an edge gets stuck before the first variable that cannot be reached. -/
theorem orderingFrom_of_not_reached (hp : p.InRange) (hcheck : p.checkEdges = .ok ())
    (he : p.edges[edge]? = some e) (hv : v < p.vars.length) (hnot : ¬ p.ReachedFrom e v)
    (hbefore : ∀ w < v, p.ReachedFrom e w) :
    p.orderingFrom edge = .error (.disconnected (p.varName v)) := by
  cases h : p.orderingFrom edge with
  | ok ordering =>
    obtain ⟨-, e', he', -, hgrowth, hperm⟩ := orderingFrom_eq_ok h
    cases he.symm.trans he'
    exact absurd (hgrowth.reaches v ((mem_of_ordering hperm).mpr hv)) hnot
  | error err =>
    have hrange := isStray_eq_false_iff.mpr (hp e (List.mem_of_getElem? he))
    rw [orderingFrom_of_edge hcheck he hrange] at h
    obtain ⟨stuck, hgrowth, -, hnone, rfl⟩ := Growth.exists_stuck hp .start h
    have hmem : ∀ w, w ∈ stuck ↔ p.ReachedFrom e w := fun w => hgrowth.mem_stuck_iff hp hnone
    rw [headD_unlisted hv (mt (hmem v).mp hnot) fun w hw => (hmem w).mpr (hbefore w hw)]

theorem fault_of_checkEdges (hp : p.InRange) (h : p.checkEdges = .error err) :
    p.OrderingFault edge err := by
  rw [checkEdges] at h
  split at h
  · rename_i hempty
    cases h
    exact .emptyQuery (List.isEmpty_iff.mp hempty)
  split at h
  · rename_i e hfind
    obtain ⟨hloop, i, hi, hget, hbefore⟩ := List.find?_eq_some_iff_getElem.mp hfind
    have hmem : e ∈ p.edges := hget ▸ List.getElem_mem hi
    have hname := vars_eq_some_varName (hp e hmem).1
    rw [hname] at h
    cases h
    refine .selfLoop (List.getElem?_eq_some_iff.mpr ⟨hi, hget⟩) (beq_iff_eq.mp hloop)
      (fun j e' hj he' => ?_) hname
    obtain ⟨hlt, rfl⟩ := List.getElem?_eq_some_iff.mp he'
    simpa using hbefore j hj
  · cases h

theorem checkEdges_of_selfLoop {i : Nat} {name : String} (he : p.edges[i]? = some e)
    (hloop : e.source = e.target)
    (hbefore : ∀ j e', j < i → p.edges[j]? = some e' → e'.source ≠ e'.target)
    (hname : p.vars[e.source]? = some name) : p.checkEdges = .error (.selfLoop name) := by
  obtain ⟨hi, hget⟩ := List.getElem?_eq_some_iff.mp he
  have hne : p.edges ≠ [] := List.ne_nil_of_mem (List.mem_of_getElem? he)
  have hfind : p.edges.find? (fun e => e.source == e.target) = some e := by
    refine List.find?_eq_some_iff_getElem.mpr ⟨by simpa using hloop, i, hi, hget, fun j hj => ?_⟩
    have hj' := List.getElem?_eq_getElem (Nat.lt_trans hj hi)
    simpa using hbefore j _ hj hj'
  rw [checkEdges, if_neg (by simpa using hne), hfind]
  simp only [hname]

theorem fault_of_orderingFrom (hp : p.InRange) (h : p.orderingFrom edge = .error err) :
    p.OrderingFault edge err := by
  rcases bind_eq_error_iff.mp h with hcheck | ⟨⟨⟩, hcheck, hrest⟩
  · exact fault_of_checkEdges hp hcheck
  obtain ⟨hne, hloop⟩ := checkEdges_eq_ok_iff.mp hcheck
  cases he : p.edges[edge]? with
  | none =>
    rw [he] at hrest
    cases hrest
    exact .unknownEdge hne hloop (List.getElem?_eq_none_iff.mp he)
  | some e =>
    have hall : ¬ ∀ v < p.vars.length, p.ReachedFrom e v := by
      intro hall
      obtain ⟨ordering, hordering⟩ := exists_orderingFrom_of_reached hp hcheck he hall
      rw [h] at hordering
      cases hordering
    obtain ⟨v, hv, hnot, hbefore⟩ := exists_first_unreached hall
    rw [orderingFrom_of_not_reached hp hcheck he hv hnot hbefore] at h
    cases h
    exact .disconnected hloop he hnot hbefore (vars_eq_some_varName hv)

/-- **The report names what is wrong first.** -/
theorem orderingFrom_eq_error_iff (hp : p.InRange) :
    p.orderingFrom edge = .error err ↔ p.OrderingFault edge err := by
  refine ⟨fault_of_orderingFrom hp, fun h => ?_⟩
  cases h with
  | emptyQuery hempty =>
    rw [orderingFrom, checkEdges, hempty]
    rfl
  | selfLoop he hloop hbefore hname =>
    rw [orderingFrom, checkEdges_of_selfLoop he hloop hbefore hname]
    rfl
  | unknownEdge hne hloop hlength =>
    rw [orderingFrom, checkEdges_eq_ok_iff.mpr ⟨hne, hloop⟩, List.getElem?_eq_none hlength]
    rfl
  | disconnected hloop he hnot hbefore hname =>
    have hne : p.edges ≠ [] := List.ne_nil_of_mem (List.mem_of_getElem? he)
    have hv := (List.getElem?_eq_some_iff.mp hname).1
    rw [← varName_eq hname]
    exact orderingFrom_of_not_reached hp (checkEdges_eq_ok_iff.mpr ⟨hne, hloop⟩) he hv hnot hbefore

/-! ## Orders -/

/-- **A variable order exists exactly on what is connected.** From an edge of a pattern without
self loops the planner comes up with an order exactly when every variable can be reached from
the edge. The order lists each variable once, the endpoints of the edge first and then always
the best linked one. Failing that, the report names what is wrong first. So a pattern that
passes the validation has an order from each of its edges. -/
theorem orderingFrom_exact (hp : p.InRange) (edge : Nat) :
    ((∃ ordering, p.orderingFrom edge = .ok ordering) ↔
      p.edges ≠ [] ∧ p.Loopless ∧
        ∃ e, p.edges[edge]? = some e ∧ ∀ v < p.vars.length, p.ReachedFrom e v) ∧
    (∀ ordering, p.orderingFrom edge = .ok ordering →
      ordering.Perm (List.range p.vars.length) ∧
      (∃ e, p.edges[edge]? = some e ∧ [e.source, e.target] <+: ordering) ∧
      p.Greedy 2 ordering) ∧
    (∀ err, p.orderingFrom edge = .error err ↔ p.OrderingFault edge err) ∧
    (p.validate = .ok () →
      ∀ edge' < p.edges.length, ∃ ordering, p.orderingFrom edge' = .ok ordering) := by
  refine ⟨⟨?_, ?_⟩, fun ordering h => ?_, fun err => orderingFrom_eq_error_iff hp,
    fun hvalid edge' hedge => exists_orderingFrom hp hvalid hedge⟩
  · rintro ⟨ordering, h⟩
    obtain ⟨hcheck, e, he, -, hgrowth, hperm⟩ := orderingFrom_eq_ok h
    obtain ⟨hne, hloop⟩ := checkEdges_eq_ok_iff.mp hcheck
    exact ⟨hne, hloop, e, he, fun v hv => hgrowth.reaches v ((mem_of_ordering hperm).mpr hv)⟩
  · rintro ⟨hne, hloop, e, he, hreach⟩
    exact exists_orderingFrom_of_reached hp (checkEdges_eq_ok_iff.mpr ⟨hne, hloop⟩) he hreach
  · obtain ⟨hcheck, e, he, hrange, -, hperm⟩ := orderingFrom_eq_ok h
    rw [orderingFrom_of_edge hcheck he hrange] at h
    obtain ⟨hbegins, hgreedy⟩ := greedy_of_completeOrdering h
    exact ⟨hperm, ⟨e, he, hbegins⟩, hgreedy⟩

/-- Two edges lead from the first variable to others and two from the last one to the first two. -/
def forked : Pattern :=
  ⟨["a", "b", "c", "d"], [⟨0, 1, .any⟩, ⟨0, 2, .any⟩, ⟨3, 0, .any⟩, ⟨3, 1, ⟨2⟩⟩]⟩

/-- The same edges, and one more variable of a name that is taken, without an edge. -/
def strayed : Pattern := { forked with vars := forked.vars ++ ["a"] }

/-- From the first edge, the last variable has more edges into the listed ones than the one
before it; the stray variable is reported. -/
theorem orderingFrom_exact_forked :
    forked.InRange ∧ forked.orderingFrom 0 = .ok [0, 1, 3, 2] ∧ forked.Greedy 2 [0, 1, 3, 2] ∧
      strayed.InRange ∧ strayed.OrderingFault 1 (.disconnected "a") := by
  have hforked : forked.InRange := by simp [forked, InRange]
  have hstrayed : strayed.InRange := by simp [strayed, forked, InRange]
  obtain ⟨-, horder, -, -⟩ := orderingFrom_exact hforked 0
  obtain ⟨-, -, hfault, -⟩ := orderingFrom_exact hstrayed 1
  exact ⟨hforked, rfl, (horder _ rfl).2.2, hstrayed, (hfault _).mp rfl⟩

end Pattern
end DeltaMatch
