import DeltaMatch.Plan

/-! Patterns: directed edges between named variables. Variables are numbered in
the order of their first use, which is also the column order of reported
matches. -/
namespace DeltaMatch

/-- A directed pattern edge between two variables, by their numbers. -/
structure PatternEdge where
  source : Nat
  target : Nat
  filter : Label
  deriving DecidableEq

/-- The pattern of a match. -/
structure Pattern where
  vars : List String
  edges : List PatternEdge
  deriving DecidableEq

namespace Pattern

/-- The pattern without variables and edges. -/
def empty : Pattern := ⟨[], []⟩

instance : Inhabited Pattern := ⟨empty⟩

/-- The number of a variable, if it is declared. -/
def varIndex? (p : Pattern) (name : String) : Option Nat := p.vars.findIdx? (· == name)

/-- The pattern with a variable declared, and its number. -/
def declare (p : Pattern) (name : String) : Pattern × Nat :=
  match p.varIndex? name with
  | some i => (p, i)
  | none => ({ p with vars := p.vars ++ [name] }, p.vars.length)

/-- The pattern with one more edge, its endpoints declared first. -/
def addEdge (p : Pattern) (source target : String) (filter : Label) : Pattern :=
  let (p, s) := p.declare source
  let (p, t) := p.declare target
  { p with edges := p.edges ++ [⟨s, t, filter⟩] }

/-- Whether every edge names declared variables. -/
def InRange (p : Pattern) : Prop :=
  ∀ e ∈ p.edges, e.source < p.vars.length ∧ e.target < p.vars.length

/-- Whether an edge names a variable that is not declared. Built edge by edge, a pattern has no
such edge; a pattern that is read may have one. -/
def isStray (p : Pattern) (e : PatternEdge) : Bool :=
  decide (p.vars.length ≤ e.source) || decide (p.vars.length ≤ e.target)

theorem isStray_eq_false_iff {p : Pattern} {e : PatternEdge} :
    p.isStray e = false ↔ e.source < p.vars.length ∧ e.target < p.vars.length := by
  rw [isStray, Bool.or_eq_false_iff, decide_eq_false_iff_not, decide_eq_false_iff_not,
    Nat.not_le, Nat.not_le]

theorem any_isStray_eq_false_iff {p : Pattern} :
    p.edges.any p.isStray = false ↔ p.InRange := by
  rw [List.any_eq_false]
  exact forall_congr' fun e => forall_congr' fun _ => by
    rw [Bool.not_eq_true, isStray_eq_false_iff]

/-- A declared variable has a number, and no variable loses its own. -/
theorem declare_spec (p : Pattern) (name : String) :
    (p.declare name).1.edges = p.edges ∧ p.vars.length ≤ (p.declare name).1.vars.length ∧
      (p.declare name).2 < (p.declare name).1.vars.length := by
  rw [declare]
  split
  · rename_i i h
    obtain ⟨hlt, -⟩ := List.findIdx?_eq_some_iff_getElem.mp h
    exact ⟨rfl, Nat.le_refl _, hlt⟩
  · simp

theorem inRange_empty : empty.InRange := nofun

theorem InRange.addEdge {p : Pattern} (h : p.InRange) (source target : String) (filter : Label) :
    (p.addEdge source target filter).InRange := by
  obtain ⟨hedges, hle, hsource⟩ := p.declare_spec source
  obtain ⟨hedges', hle', htarget⟩ := (p.declare source).1.declare_spec target
  intro e he
  rw [Pattern.addEdge] at he ⊢
  simp only [hedges', hedges, List.mem_append, List.mem_singleton] at he ⊢
  rcases he with he | rfl
  · have hbefore := h e he
    omega
  · exact ⟨Nat.lt_of_lt_of_le hsource hle', htarget⟩

/-- The name of a variable. -/
def varName (p : Pattern) (i : Nat) : String := p.vars.getD i ""

end Pattern
end DeltaMatch
