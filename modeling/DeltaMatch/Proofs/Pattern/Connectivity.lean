import DeltaMatch.Proofs.Pattern.Placement
import DeltaMatch.Proofs.Results
import Mathlib.Logic.Relation

/-!
# Connected patterns

The planner lists the variables of a pattern one by one, each joined by an edge to one
listed before it. It gets to the end from one edge exactly when it does from any other,
since either way the pattern has to be connected.
-/

namespace DeltaMatch
namespace Pattern

variable {p : Pattern} {listed seen vs : List Nat} {best : Option Nat} {v w : Nat}

/-- Some edge joins the two variables, in one direction or the other. -/
def Linked (p : Pattern) (v w : Nat) : Prop :=
  ∃ e ∈ p.edges, (e.source = v ∧ e.target = w) ∨ (e.target = v ∧ e.source = w)

theorem Linked.symm (h : p.Linked v w) : p.Linked w v := by
  obtain ⟨e, he, ⟨hv, hw⟩ | ⟨hv, hw⟩⟩ := h
  · exact ⟨e, he, Or.inr ⟨hw, hv⟩⟩
  · exact ⟨e, he, Or.inl ⟨hw, hv⟩⟩

theorem lt_of_linked (hp : p.InRange) (h : p.Linked v w) : v < p.vars.length := by
  obtain ⟨e, he, ⟨rfl, -⟩ | ⟨rfl, -⟩⟩ := h
  · exact (hp e he).1
  · exact (hp e he).2

/-- A chain of edges, in either direction, leads from one variable to the other. -/
abbrev Reaches (p : Pattern) : Nat → Nat → Prop := Relation.ReflTransGen p.Linked

theorem Reaches.symm (h : p.Reaches v w) : p.Reaches w v := by
  induction h with
  | refl => exact .refl
  | tail _ hlink ih => exact (Relation.ReflTransGen.single hlink.symm).trans ih

/-- A chain that leaves a set of variables has an edge that leaves it. -/
theorem Reaches.exists_crossing (h : p.Reaches v w) (hv : v ∈ listed) (hw : w ∉ listed) :
    ∃ a ∈ listed, ∃ b, b ∉ listed ∧ p.Linked b a := by
  induction h with
  | refl => exact absurd hv hw
  | @tail b c _ hlink ih =>
    by_cases hb : b ∈ listed
    · exact ⟨b, hb, c, hw, hlink.symm⟩
    · exact ih hb

/-! ## The next variable -/

theorem links_pos_iff : 0 < p.links listed v ↔ ∃ w ∈ listed, p.Linked v w := by
  rw [links, List.countP_pos_iff]
  simp only [Bool.or_eq_true, Bool.and_eq_true, beq_iff_eq, List.contains_iff_mem]
  constructor
  · rintro ⟨e, he, ⟨hv, hw⟩ | ⟨hv, hw⟩⟩
    · exact ⟨e.target, hw, e, he, Or.inl ⟨hv, rfl⟩⟩
    · exact ⟨e.source, hw, e, he, Or.inr ⟨hv, rfl⟩⟩
  · rintro ⟨w, hw, e, he, ⟨hv, rfl⟩ | ⟨hv, rfl⟩⟩
    · exact ⟨e, he, Or.inl ⟨hv, hw⟩⟩
    · exact ⟨e, he, Or.inr ⟨hv, hw⟩⟩

theorem mem_unlisted : v ∈ p.unlisted listed ↔ v < p.vars.length ∧ v ∉ listed := by
  simp [unlisted]

/-- Of the variables that are not listed, the one with the most edges into the listed ones, and
of several such the one with the lowest number. -/
structure BestLinked (p : Pattern) (listed : List Nat) (v : Nat) : Prop where
  declared : v < p.vars.length
  unlisted : v ∉ listed
  linked : 0 < p.links listed v
  most : ∀ w < p.vars.length, w ∉ listed → p.links listed w ≤ p.links listed v
  lowest : ∀ w < v, w ∉ listed → p.links listed w < p.links listed v

/-- The choice among the variables seen so far; none as long as none of them is linked. -/
def Leads (p : Pattern) (listed seen : List Nat) : Option Nat → Prop
  | none => ∀ w ∈ seen, p.links listed w = 0
  | some v => v ∈ seen ∧ 0 < p.links listed v ∧
      ∀ w ∈ seen, p.links listed w ≤ p.links listed v ∧
        (w < v → p.links listed w < p.links listed v)

/-- One more variable is seen, with a higher number than those before it. -/
theorem Leads.next (h : p.Leads listed seen best) (hlast : ∀ w ∈ seen, w < v) :
    p.Leads listed (seen ++ [v]) (p.betterLinked listed best v) := by
  cases best with
  | none =>
    rw [betterLinked]
    split
    · rename_i hpos
      refine ⟨by simp, hpos, fun w hw => ?_⟩
      rcases List.mem_append.mp hw with hw | hw
      · have hzero := h w hw
        omega
      · obtain rfl := List.mem_singleton.mp hw
        exact ⟨Nat.le_refl _, fun hlt => absurd hlt (Nat.lt_irrefl _)⟩
    · intro w hw
      rcases List.mem_append.mp hw with hw | hw
      · exact h w hw
      · obtain rfl := List.mem_singleton.mp hw
        omega
  | some b =>
    obtain ⟨hb, hpos, hbest⟩ := h
    rw [betterLinked]
    split
    · rename_i hmore
      refine ⟨by simp, by omega, fun w hw => ?_⟩
      rcases List.mem_append.mp hw with hw | hw
      · have hle := (hbest w hw).1
        omega
      · obtain rfl := List.mem_singleton.mp hw
        exact ⟨Nat.le_refl _, fun hlt => absurd hlt (Nat.lt_irrefl _)⟩
    -- on a tie the earlier variable stays, and it has the lower number
    · refine ⟨List.mem_append_left _ hb, hpos, fun w hw => ?_⟩
      rcases List.mem_append.mp hw with hw | hw
      · exact hbest w hw
      · obtain rfl := List.mem_singleton.mp hw
        have hlt := hlast b hb
        omega

theorem Leads.foldl (h : p.Leads listed seen best) (hsorted : (seen ++ vs).Pairwise (· < ·)) :
    p.Leads listed (seen ++ vs) (vs.foldl (p.betterLinked listed) best) := by
  induction vs generalizing seen best with
  | nil => rwa [List.append_nil]
  | cons v rest ih =>
    have hlast : ∀ w ∈ seen, w < v := fun w hw =>
      (List.pairwise_append.mp hsorted).2.2 w hw v List.mem_cons_self
    have hassoc : seen ++ v :: rest = seen ++ [v] ++ rest := by simp
    rw [hassoc] at hsorted ⊢
    exact ih (h.next hlast) hsorted

theorem leads_nextVar? (p : Pattern) (listed : List Nat) :
    p.Leads listed (p.unlisted listed) (p.nextVar? listed) := by
  have hnone : p.Leads listed [] none := nofun
  exact hnone.foldl (List.pairwise_lt_range.sublist List.filter_sublist)

/-- **The next variable is the best linked one.** -/
theorem bestLinked_of_nextVar? (h : p.nextVar? listed = some v) : p.BestLinked listed v := by
  have hleads := p.leads_nextVar? listed
  rw [h] at hleads
  obtain ⟨hv, hpos, hbest⟩ := hleads
  rw [mem_unlisted] at hv
  refine ⟨hv.1, hv.2, hpos, fun w hw hnot => ?_, fun w hw hnot => ?_⟩
  · exact (hbest w (mem_unlisted.mpr ⟨hw, hnot⟩)).1
  · exact (hbest w (mem_unlisted.mpr ⟨Nat.lt_trans hw hv.1, hnot⟩)).2 hw

theorem BestLinked.exists_linked (h : p.BestLinked listed v) : ∃ w ∈ listed, p.Linked v w :=
  links_pos_iff.mp h.linked

/-- There is a next variable as long as an edge leaves the listed ones. -/
theorem not_linked_of_nextVar? (h : p.nextVar? listed = none) (hv : v < p.vars.length)
    (hnot : v ∉ listed) (hw : w ∈ listed) : ¬ p.Linked v w := by
  have hleads := p.leads_nextVar? listed
  rw [h] at hleads
  intro hlink
  have hpos := links_pos_iff.mpr ⟨w, hw, hlink⟩
  have hzero := hleads v (mem_unlisted.mpr ⟨hv, hnot⟩)
  omega

/-! ## The whole ordering -/

/-- Lists that grow by one variable after the other, each linked to a listed one. -/
inductive Growth (p : Pattern) (start : List Nat) : List Nat → Prop
  | start : Growth p start start
  | grow {listed : List Nat} {v : Nat} : Growth p start listed → v < p.vars.length →
      v ∉ listed → (∃ w ∈ listed, p.Linked v w) → Growth p start (listed ++ [v])

namespace Growth

variable {start : List Nat}

theorem isPrefix (h : Growth p start listed) : start <+: listed := by
  induction h with
  | start => exact List.prefix_rfl
  | grow _ _ _ _ ih => exact ih.trans (List.prefix_append _ _)

theorem nodup (h : Growth p start listed) (hstart : start.Nodup) : listed.Nodup := by
  induction h with
  | start => exact hstart
  | grow _ _ hnot _ ih =>
    rw [← List.concat_eq_append]
    exact ih.concat hnot

theorem bounded (h : Growth p start listed) (hstart : ∀ v ∈ start, v < p.vars.length) :
    ∀ v ∈ listed, v < p.vars.length := by
  induction h with
  | start => exact hstart
  | grow _ hlt _ _ ih =>
    intro v hv
    rcases List.mem_append.mp hv with hv | hv
    · exact ih v hv
    · rwa [List.mem_singleton.mp hv]

theorem reaches (h : Growth p start listed) : ∀ v ∈ listed, ∃ w ∈ start, p.Reaches w v := by
  induction h with
  | start => exact fun v hv => ⟨v, hv, .refl⟩
  | grow _ _ _ hlink ih =>
    intro v hv
    rcases List.mem_append.mp hv with hv | hv
    · exact ih v hv
    · obtain ⟨u, hu, hlink⟩ := hlink
      obtain ⟨w, hw, hreach⟩ := ih u hu
      rw [List.mem_singleton.mp hv]
      exact ⟨w, hw, hreach.tail hlink.symm⟩

/-- Past the start, each variable is linked to one listed before it. -/
theorem linked_earlier (h : Growth p start listed) {i : Nat} (hi : start.length ≤ i)
    (hv : listed[i]? = some v) : ∃ j w, j < i ∧ listed[j]? = some w ∧ p.Linked v w := by
  induction h with
  | start =>
    rw [List.getElem?_eq_none hi] at hv
    cases hv
  | @grow listed u _ _ _ hlink ih =>
    have hlt : i < (listed ++ [u]).length := (List.getElem?_eq_some_iff.mp hv).1
    rw [List.length_append, List.length_singleton] at hlt
    by_cases hlast : i < listed.length
    · rw [List.getElem?_append_left hlast] at hv
      obtain ⟨j, w, hj, hw, hlink⟩ := ih hv
      refine ⟨j, w, hj, ?_, hlink⟩
      rwa [List.getElem?_append_left (by omega)]
    · obtain rfl : i = listed.length := by omega
      rw [List.getElem?_append_right (Nat.le_refl _), Nat.sub_self] at hv
      cases hv
      obtain ⟨w, hw, hlink⟩ := hlink
      obtain ⟨j, hj⟩ := List.mem_iff_getElem?.mp hw
      have hjlt : j < listed.length := (List.getElem?_eq_some_iff.mp hj).1
      refine ⟨j, w, hjlt, ?_, hlink⟩
      rwa [List.getElem?_append_left hjlt]

/-- Edges between declared variables are counted. -/
theorem countsStray_eq_false (hp : p.InRange) (listed : List Nat) :
    p.countsStray listed = false := by
  rw [countsStray, List.any_eq_false]
  intro v _
  rw [Bool.not_eq_true, List.any_eq_false]
  intro e he
  rw [isStray_eq_false_iff.mpr (hp e he), Bool.and_false]
  exact Bool.false_ne_true

/-- An ordering is completed by one variable after the other. -/
theorem completeOrdering_succ_eq_ok {listed ordering : List Nat} {missing : Nat}
    (h : p.completeOrdering (missing + 1) listed = .ok ordering) :
    ∃ v, p.nextVar? listed = some v ∧ p.completeOrdering missing (listed ++ [v]) = .ok ordering := by
  rw [completeOrdering] at h
  split at h
  · cases h
  · split at h
    · rename_i v hnext
      exact ⟨v, hnext, h⟩
    · cases h

theorem of_completeOrdering {start listed ordering : List Nat} {missing : Nat}
    (hgrowth : Growth p start listed) (h : p.completeOrdering missing listed = .ok ordering) :
    Growth p start ordering ∧ ordering.length = listed.length + missing := by
  induction missing generalizing listed with
  | zero =>
    cases h
    exact ⟨hgrowth, rfl⟩
  | succ missing ih =>
    obtain ⟨v, hnext, h⟩ := completeOrdering_succ_eq_ok h
    have hbest := bestLinked_of_nextVar? hnext
    obtain ⟨hgrowth, hlength⟩ :=
      ih (hgrowth.grow hbest.declared hbest.unlisted hbest.exists_linked) h
    rw [List.length_append, List.length_singleton] at hlength
    exact ⟨hgrowth, by omega⟩

/-- An ordering that cannot be completed gets stuck on the way. -/
theorem exists_stuck (hp : p.InRange) {start listed : List Nat} {missing : Nat} {err : PlanError}
    (hgrowth : Growth p start listed) (h : p.completeOrdering missing listed = .error err) :
    ∃ stuck, Growth p start stuck ∧ stuck.length < listed.length + missing ∧
      p.nextVar? stuck = none ∧
      err = .disconnected (p.varName ((p.unlisted stuck).headD 0)) := by
  induction missing generalizing listed with
  | zero => cases h
  | succ missing ih =>
    rw [completeOrdering, countsStray_eq_false hp, if_neg Bool.false_ne_true] at h
    split at h
    · rename_i v hnext
      have hbest := bestLinked_of_nextVar? hnext
      obtain ⟨stuck, hstuck, hlt, hrest⟩ :=
        ih (hgrowth.grow hbest.declared hbest.unlisted hbest.exists_linked) h
      rw [List.length_append, List.length_singleton] at hlt
      exact ⟨stuck, hstuck, by omega, hrest⟩
    · rename_i hnone
      cases h
      exact ⟨listed, hgrowth, by omega, hnone, rfl⟩

/-- **Where it gets stuck, everything that can be reached is listed.** -/
theorem mem_stuck_iff (hp : p.InRange) (h : Growth p start listed)
    (hnone : p.nextVar? listed = none) : v ∈ listed ↔ ∃ w ∈ start, p.Reaches w v := by
  constructor
  · exact h.reaches v
  · rintro ⟨w, hw, hreach⟩
    by_contra hnot
    obtain ⟨a, ha, b, hb, hlink⟩ := hreach.exists_crossing (h.isPrefix.subset hw) hnot
    exact not_linked_of_nextVar? hnone (lt_of_linked hp hlink) hb ha hlink

/-- Fewer variables than there are leave one out. -/
theorem exists_unlisted (hlt : listed.length < p.vars.length) :
    ∃ v < p.vars.length, v ∉ listed := by
  by_contra hall
  push Not at hall
  have hsub := List.nodup_range.subperm fun v hv => hall v (List.mem_range.mp hv)
  have hle := hsub.length_le
  rw [List.length_range] at hle
  omega

end Growth

/-- From variables that reach all others, the ordering can be completed. -/
theorem completeOrdering_eq_ok (hp : p.InRange) {missing : Nat}
    (hlength : listed.length + missing = p.vars.length)
    (hreach : ∀ v < p.vars.length, ∃ w ∈ listed, p.Reaches w v) :
    ∃ ordering, p.completeOrdering missing listed = .ok ordering := by
  cases h : p.completeOrdering missing listed with
  | ok ordering => exact ⟨ordering, rfl⟩
  | error err =>
    obtain ⟨stuck, hgrowth, hlt, hnone, -⟩ := Growth.exists_stuck hp .start h
    rw [hlength] at hlt
    obtain ⟨v, hv, hnot⟩ := Growth.exists_unlisted hlt
    exact absurd ((hgrowth.mem_stuck_iff hp hnone).mpr (hreach v hv)) hnot

/-! ## Orderings from an edge -/

variable {edge : Nat} {ordering : List Nat}

/-- The variable can be reached from an endpoint of the edge. -/
def ReachedFrom (p : Pattern) (e : PatternEdge) (v : Nat) : Prop :=
  ∃ w ∈ [e.source, e.target], p.Reaches w v

theorem orderingFrom_of_edge {e : PatternEdge} (hcheck : p.checkEdges = .ok ())
    (he : p.edges[edge]? = some e) (hrange : p.isStray e = false) :
    p.orderingFrom edge = p.completeOrdering (p.vars.length - 2) [e.source, e.target] := by
  rw [orderingFrom, hcheck, he]
  show (if p.isStray e = true then _ else _) = _
  rw [hrange, if_neg Bool.false_ne_true]

/-- An ordering from an edge starts with its endpoints and grows to all variables. -/
theorem orderingFrom_eq_ok (h : p.orderingFrom edge = .ok ordering) :
    p.checkEdges = .ok () ∧ ∃ e, p.edges[edge]? = some e ∧ p.isStray e = false ∧
      Growth p [e.source, e.target] ordering ∧ ordering.Perm (List.range p.vars.length) := by
  obtain ⟨⟨⟩, hcheck, hchosen⟩ := bind_eq_ok_iff.mp h
  cases he : p.edges[edge]? with
  | none =>
    rw [he] at hchosen
    cases hchosen
  | some e =>
    rw [he] at hchosen
    simp only at hchosen
    split at hchosen
    · cases hchosen
    rename_i hstray
    rw [Bool.not_eq_true] at hstray
    have hloop := (checkEdges_eq_ok_iff.mp hcheck).2 e (List.mem_of_getElem? he)
    have hrange := isStray_eq_false_iff.mp hstray
    -- distinct variables in range, as many as there are, are all of them
    obtain ⟨hgrowth, hlength⟩ := Growth.of_completeOrdering .start hchosen
    have hnodup : ordering.Nodup := hgrowth.nodup (by simp [hloop])
    have hbounded : ordering ⊆ List.range p.vars.length := fun v hv =>
      List.mem_range.mpr (hgrowth.bounded (by simp [hrange]) v hv)
    refine ⟨hcheck, e, rfl, hstray, hgrowth, ?_⟩
    refine (hnodup.subperm hbounded).perm_of_length_le ?_
    rw [List.length_range, hlength, List.length_cons, List.length_singleton]
    omega

theorem length_pos_of_validate (h : p.validate = .ok ()) : 0 < p.edges.length := by
  obtain ⟨ordering, hordering, -⟩ := bind_eq_ok_iff.mp h
  obtain ⟨-, e, he, -⟩ := orderingFrom_eq_ok hordering
  exact (List.getElem?_eq_some_iff.mp he).1

/-- **What the planner validates is connected.** -/
theorem reaches_of_validate (h : p.validate = .ok ()) :
    p.checkEdges = .ok () ∧ ∀ v < p.vars.length, ∀ w < p.vars.length, p.Reaches v w := by
  obtain ⟨ordering, hordering, -⟩ := bind_eq_ok_iff.mp h
  obtain ⟨hcheck, e, he, -, hgrowth, hperm⟩ := orderingFrom_eq_ok hordering
  have hedge : p.Linked e.source e.target :=
    ⟨e, List.mem_of_getElem? he, Or.inl ⟨rfl, rfl⟩⟩
  -- the first edge reaches everything, so any two variables meet at its source
  have hsource : ∀ v < p.vars.length, p.Reaches e.source v := by
    intro v hv
    obtain ⟨w, hw, hreach⟩ := hgrowth.reaches v ((mem_of_ordering hperm).mpr hv)
    rcases List.mem_pair.mp hw with rfl | rfl
    · exact hreach
    · exact (Relation.ReflTransGen.single hedge).trans hreach
  exact ⟨hcheck, fun v hv w hw => (Reaches.symm (hsource v hv)).trans (hsource w hw)⟩

/-- An edge from which all variables are reached has an ordering. -/
theorem exists_orderingFrom_of_reached (hp : p.InRange) (hcheck : p.checkEdges = .ok ())
    {e : PatternEdge} (he : p.edges[edge]? = some e)
    (hreach : ∀ v < p.vars.length, p.ReachedFrom e v) :
    ∃ ordering, p.orderingFrom edge = .ok ordering := by
  have htwo := two_le_of_checkEdges hp hcheck
  have hrange := isStray_eq_false_iff.mpr (hp e (List.mem_of_getElem? he))
  rw [orderingFrom_of_edge hcheck he hrange]
  refine completeOrdering_eq_ok hp ?_ hreach
  rw [List.length_cons, List.length_singleton]
  omega

/-- A validated pattern has an ordering from each of its edges. -/
theorem exists_orderingFrom (hp : p.InRange) (h : p.validate = .ok ())
    (hedge : edge < p.edges.length) : ∃ ordering, p.orderingFrom edge = .ok ordering := by
  obtain ⟨hcheck, hconnected⟩ := reaches_of_validate h
  have hrange := hp _ (List.getElem_mem hedge)
  refine exists_orderingFrom_of_reached hp hcheck (List.getElem?_eq_getElem hedge) fun v hv => ?_
  exact ⟨p.edges[edge].source, List.mem_cons_self, hconnected _ hrange.1 v hv⟩

/-- **What the planner validates**: patterns with an edge, without a loop, and in one piece. -/
theorem validate_eq_ok_iff (hp : p.InRange) : p.validate = .ok () ↔
    p.edges ≠ [] ∧ p.Loopless ∧ ∀ v < p.vars.length, ∀ w < p.vars.length, p.Reaches v w := by
  constructor
  · intro h
    obtain ⟨hcheck, hconnected⟩ := reaches_of_validate h
    obtain ⟨hne, hloop⟩ := checkEdges_eq_ok_iff.mp hcheck
    exact ⟨hne, hloop, hconnected⟩
  · rintro ⟨hne, hloop, hconnected⟩
    have hcheck : p.checkEdges = .ok () := checkEdges_eq_ok_iff.mpr ⟨hne, hloop⟩
    have hfirst : p.edges[0]? = some (p.edges.head hne) := by
      rw [← List.head?_eq_getElem?, List.head?_eq_some_head hne]
    have hrange := hp _ (List.head_mem hne)
    obtain ⟨ordering, hordering⟩ := exists_orderingFrom_of_reached hp hcheck hfirst
      fun v hv => ⟨_, List.mem_cons_self, hconnected _ hrange.1 v hv⟩
    exact bind_eq_ok_iff.mpr ⟨ordering, hordering, rfl⟩

end Pattern
end DeltaMatch
