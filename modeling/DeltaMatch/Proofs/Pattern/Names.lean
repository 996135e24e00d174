import DeltaMatch.Proofs.Pattern.Connectivity
import Mathlib.Data.List.Nodup

/-!
# Patterns by their names

Edges between names make up a pattern whose variables are the names, numbered in the order of
their first use. Which patterns the planner validates can be said of the names alone.
-/

namespace DeltaMatch

/-- An edge between two names. -/
structure NamedEdge where
  source : String
  target : String
  filter : Label

namespace NamedEdge

/-- The names in a list of edges, in the order in which they are used. -/
def uses (named : List NamedEdge) : List String := named.flatMap fun x => [x.source, x.target]

/-- An edge joins the two names, in one direction or the other. -/
def Joined (named : List NamedEdge) (a b : String) : Prop :=
  ∃ x ∈ named, (x.source = a ∧ x.target = b) ∨ (x.target = a ∧ x.source = b)

/-- A chain of edges, in either direction, leads from each name to each other one. -/
def Connected (named : List NamedEdge) : Prop :=
  ∀ a ∈ uses named, ∀ b ∈ uses named, Relation.ReflTransGen (Joined named) a b

end NamedEdge

open NamedEdge

/-- The names are those that are used, each once, in the order of their first use. -/
structure FirstUses (used names : List String) : Prop where
  nodup : names.Nodup
  mem_iff : ∀ name, name ∈ names ↔ name ∈ used
  ordered : names.Pairwise fun a b => used.idxOf a < used.idxOf b

/-- The endpoints of the edge are the numbers of the two names, and its filter is the same. -/
structure PatternEdge.Resolves (names : List String) (e : PatternEdge) (x : NamedEdge) : Prop where
  source : names[e.source]? = some x.source
  target : names[e.target]? = some x.target
  filter : e.filter = x.filter

/-- The variables of the pattern are the names in the edges, and its edges are those. -/
structure Pattern.Describes (p : Pattern) (named : List NamedEdge) : Prop where
  vars : FirstUses (uses named) p.vars
  edges : List.Forall₂ (PatternEdge.Resolves p.vars) p.edges named

/-- The pattern that the edges make up. -/
def Pattern.ofNamed (named : List NamedEdge) : Pattern :=
  named.foldl (fun p x => p.addEdge x.source x.target x.filter) .empty

variable {used names : List String} {name a b : String} {named : List NamedEdge} {x : NamedEdge}
  {p : Pattern}

/-! ## First uses -/

theorem getElem?_eq_of_isPrefix {names' : List String} {i : Nat} (hkeeps : names <+: names')
    (hi : names[i]? = some name) : names'[i]? = some name := by
  obtain ⟨rest, rfl⟩ := hkeeps
  rwa [List.getElem?_append_left (List.getElem?_eq_some_iff.mp hi).1]

/-- Names that are used later do not change the order of those used before. -/
theorem FirstUses.ordered_append (h : FirstUses used names) (more : List String) :
    names.Pairwise fun a b => (used ++ more).idxOf a < (used ++ more).idxOf b := by
  refine h.ordered.imp_of_mem fun {a b} ha hb hlt => ?_
  rwa [List.idxOf_append_of_mem ((h.mem_iff a).mp ha),
    List.idxOf_append_of_mem ((h.mem_iff b).mp hb)]

/-- A name that is used again changes nothing. -/
theorem FirstUses.again (h : FirstUses used names) (hname : name ∈ names) :
    FirstUses (used ++ [name]) names := by
  refine ⟨h.nodup, fun a => ?_, h.ordered_append [name]⟩
  rw [List.mem_append, List.mem_singleton, h.mem_iff]
  refine ⟨Or.inl, fun ha => ha.elim id ?_⟩
  rintro rfl
  exact (h.mem_iff _).mp hname

/-- A new name comes last. -/
theorem FirstUses.fresh (h : FirstUses used names) (hname : name ∉ names) :
    FirstUses (used ++ [name]) (names ++ [name]) := by
  have hunused : name ∉ used := fun hused => hname ((h.mem_iff name).mpr hused)
  refine ⟨List.concat_eq_append ▸ h.nodup.concat hname, fun a => ?_, List.pairwise_append.mpr
    ⟨h.ordered_append [name], List.pairwise_singleton _ _, fun a ha b hb => ?_⟩⟩
  · rw [List.mem_append, List.mem_append, h.mem_iff]
  · obtain rfl := List.mem_singleton.mp hb
    have hused := (h.mem_iff a).mp ha
    rw [List.idxOf_append_of_mem hused, List.idxOf_append_of_notMem hunused]
    exact Nat.lt_of_lt_of_le (List.idxOf_lt_length_of_mem hused) (Nat.le_add_right _ _)

namespace Pattern

/-- A declared variable has its name, and the other variables keep theirs. -/
theorem declare_names (h : FirstUses used p.vars) (name : String) :
    FirstUses (used ++ [name]) (p.declare name).1.vars ∧ p.vars <+: (p.declare name).1.vars ∧
      (p.declare name).1.vars[(p.declare name).2]? = some name := by
  rw [declare, varIndex?]
  split
  · rename_i i hindex
    obtain ⟨hlt, heq, -⟩ := List.findIdx?_eq_some_iff_getElem.mp hindex
    obtain rfl := eq_of_beq heq
    exact ⟨h.again (List.getElem_mem hlt), List.prefix_rfl, List.getElem?_eq_getElem hlt⟩
  · rename_i hnone
    have hname : name ∉ p.vars := fun hmem => by
      simpa using List.findIdx?_eq_none_iff.mp hnone name hmem
    exact ⟨h.fresh hname, List.prefix_append _ _, List.getElem?_concat_length⟩

end Pattern

/-! ## Resolved edges -/

namespace PatternEdge

variable {e : PatternEdge}

theorem Resolves.mono {names' : List String} (h : e.Resolves names x) (hkeeps : names <+: names') :
    e.Resolves names' x :=
  ⟨getElem?_eq_of_isPrefix hkeeps h.source, getElem?_eq_of_isPrefix hkeeps h.target, h.filter⟩

/-- An edge is a loop where its two names are one. -/
theorem Resolves.loop_iff (h : e.Resolves names x) (hnodup : names.Nodup) :
    e.source = e.target ↔ x.source = x.target := by
  have hlt := (List.getElem?_eq_some_iff.mp h.source).1
  rw [← List.getElem?_inj hlt hnodup, h.source, h.target, Option.some.injEq]

theorem Resolves.idxOf (h : e.Resolves names x) (hnodup : names.Nodup) :
    names.idxOf x.source = e.source ∧ names.idxOf x.target = e.target := by
  obtain ⟨hsource, heq⟩ := List.getElem?_eq_some_iff.mp h.source
  obtain ⟨htarget, heq'⟩ := List.getElem?_eq_some_iff.mp h.target
  rw [← heq, ← heq']
  exact ⟨hnodup.idxOf_getElem _ hsource, hnodup.idxOf_getElem _ htarget⟩

end PatternEdge

namespace Pattern

theorem varName_of_getElem? {v : Nat} (h : p.vars[v]? = some a) : p.varName v = a := by
  rw [varName, List.getD_eq_getElem?_getD, h]
  rfl

theorem describes_empty : empty.Describes [] :=
  ⟨⟨List.nodup_nil, fun _ => Iff.rfl, .nil⟩, .nil⟩

namespace Describes

/-- One more edge: its names are declared, and no other edge loses its own. -/
theorem addEdge (h : p.Describes named) (x : NamedEdge) :
    (p.addEdge x.source x.target x.filter).Describes (named ++ [x]) := by
  obtain ⟨hsource, hkept, hfirst⟩ := declare_names h.vars x.source
  obtain ⟨htarget, hkept', hsecond⟩ := declare_names hsource x.target
  obtain ⟨hedges, -, -⟩ := p.declare_spec x.source
  obtain ⟨hedges', -, -⟩ := (p.declare x.source).1.declare_spec x.target
  rw [Pattern.addEdge]
  constructor
  · rw [uses, List.flatMap_append, ← uses]
    simpa using htarget
  · simp only [hedges', hedges]
    exact List.rel_append (h.edges.imp fun e y hy => hy.mono (hkept.trans hkept'))
      (.cons ⟨getElem?_eq_of_isPrefix hkept' hfirst, hsecond, rfl⟩ .nil)

theorem foldl (h : p.Describes named) (more : List NamedEdge) :
    (more.foldl (fun p x => p.addEdge x.source x.target x.filter) p).Describes (named ++ more) := by
  induction more generalizing p named with
  | nil => rwa [List.append_nil]
  | cons x rest ih =>
    have hassoc : named ++ x :: rest = named ++ [x] ++ rest := by simp
    rw [hassoc]
    exact ih (h.addEdge x)

theorem inRange (h : p.Describes named) : p.InRange := by
  intro e he
  obtain ⟨x, -, hx⟩ := (exists_of_forall₂ h.edges).1 e he
  exact ⟨(List.getElem?_eq_some_iff.mp hx.source).1, (List.getElem?_eq_some_iff.mp hx.target).1⟩

theorem edges_ne_nil_iff (h : p.Describes named) : p.edges ≠ [] ↔ named ≠ [] := by
  rw [← List.length_pos_iff, ← List.length_pos_iff, h.edges.length_eq]

theorem loopless_iff (h : p.Describes named) :
    p.Loopless ↔ ∀ x ∈ named, x.source ≠ x.target := by
  obtain ⟨hnamed, hedge⟩ := exists_of_forall₂ h.edges
  constructor
  · intro hloop x hx heq
    obtain ⟨e, he, hresolves⟩ := hedge x hx
    exact hloop e he ((hresolves.loop_iff h.vars.nodup).mpr heq)
  · intro hloop e he heq
    obtain ⟨x, hx, hresolves⟩ := hnamed e he
    exact hloop x hx ((hresolves.loop_iff h.vars.nodup).mp heq)

/-- Variables are linked as their names are. -/
theorem joined_of_linked (h : p.Describes named) {v w : Nat} (hlink : p.Linked v w) :
    Joined named (p.varName v) (p.varName w) := by
  obtain ⟨e, he, hends⟩ := hlink
  obtain ⟨x, hx, hresolves⟩ := (exists_of_forall₂ h.edges).1 e he
  refine ⟨x, hx, ?_⟩
  rw [← varName_of_getElem? hresolves.source, ← varName_of_getElem? hresolves.target]
  rcases hends with ⟨rfl, rfl⟩ | ⟨rfl, rfl⟩
  · exact Or.inl ⟨rfl, rfl⟩
  · exact Or.inr ⟨rfl, rfl⟩

theorem linked_of_joined (h : p.Describes named) (hjoin : Joined named a b) :
    p.Linked (p.vars.idxOf a) (p.vars.idxOf b) := by
  obtain ⟨x, hx, hends⟩ := hjoin
  obtain ⟨e, he, hresolves⟩ := (exists_of_forall₂ h.edges).2 x hx
  obtain ⟨hsource, htarget⟩ := hresolves.idxOf h.vars.nodup
  refine ⟨e, he, ?_⟩
  rw [← hsource, ← htarget]
  rcases hends with ⟨rfl, rfl⟩ | ⟨rfl, rfl⟩
  · exact Or.inl ⟨rfl, rfl⟩
  · exact Or.inr ⟨rfl, rfl⟩

theorem connected_iff (h : p.Describes named) :
    (∀ v < p.vars.length, ∀ w < p.vars.length, p.Reaches v w) ↔ Connected named := by
  constructor
  · intro hreach a ha b hb
    obtain ⟨v, hv, rfl⟩ := List.getElem_of_mem ((h.vars.mem_iff a).mpr ha)
    obtain ⟨w, hw, rfl⟩ := List.getElem_of_mem ((h.vars.mem_iff b).mpr hb)
    have hchain : Relation.ReflTransGen (Joined named) (p.varName v) (p.varName w) :=
      Relation.ReflTransGen.lift p.varName (fun _ _ => h.joined_of_linked) v w (hreach v hv w hw)
    rwa [varName_of_getElem? (List.getElem?_eq_getElem hv),
      varName_of_getElem? (List.getElem?_eq_getElem hw)] at hchain
  · intro hconnected v hv w hw
    have hnames := hconnected _ ((h.vars.mem_iff _).mp (List.getElem_mem hv)) _
      ((h.vars.mem_iff _).mp (List.getElem_mem hw))
    have hchain : p.Reaches (p.vars.idxOf p.vars[v]) (p.vars.idxOf p.vars[w]) :=
      Relation.ReflTransGen.lift p.vars.idxOf (fun _ _ => h.linked_of_joined) _ _ hnames
    rwa [h.vars.nodup.idxOf_getElem v hv, h.vars.nodup.idxOf_getElem w hw] at hchain

/-- **What the planner validates, said of the names**: at least one edge, none of them from a
name to itself, and all names in one piece. -/
theorem validate_iff (h : p.Describes named) : p.validate = .ok () ↔
    named ≠ [] ∧ (∀ x ∈ named, x.source ≠ x.target) ∧ Connected named := by
  rw [validate_eq_ok_iff h.inRange, h.edges_ne_nil_iff, h.loopless_iff, h.connected_iff]

end Describes

/-- **The edges make up a pattern with their names for variables.** -/
theorem describes_ofNamed (named : List NamedEdge) : (ofNamed named).Describes named :=
  describes_empty.foldl named

end Pattern
end DeltaMatch
