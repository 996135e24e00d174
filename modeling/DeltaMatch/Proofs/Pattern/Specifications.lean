import DeltaMatch.Proofs.EdgeSpec
import DeltaMatch.Proofs.Pattern.Names

/-!
# Patterns from specifications

Which specifications make up a pattern, and which pattern that is. A pattern that was read can
be written as specifications again, and those make it up as well.
-/

namespace DeltaMatch

open NamedEdge

/-- The specification stands for the edge: its names are those of the two variables, and its
type is the filter, or is left out where every label will do. -/
structure EdgeSpec.Stands (spec : String) (x : NamedEdge) : Prop where
  source : x.source ≠ ""
  target : x.target ≠ ""
  parts : ∃ type, Consists spec (x.source.toList :: x.target.toList :: type.toList) ∧
    TypeReads .any type x.filter

namespace Pattern

/-- The specification of a pattern edge. -/
def specOf (p : Pattern) (e : PatternEdge) : String :=
  ":".intercalate (p.varName e.source :: p.varName e.target ::
    if e.filter.isAny then [] else [e.filter.text])

/-- The specifications of the edges of a pattern. -/
def specs (p : Pattern) : List String := p.edges.map p.specOf

open EdgeSpec

variable {p p' : Pattern} {named : List NamedEdge} {x : NamedEdge} {spec : String}
  {specs : List String}

/-! ## Reading -/

/-- **A specification adds the edge that it stands for.** -/
theorem addSpec_eq_ok_iff : p.addSpec spec = .ok p' ↔
    ∃ x, Stands spec x ∧ p' = p.addEdge x.source x.target x.filter := by
  constructor
  · intro h
    obtain ⟨⟨source, target, type⟩, hparts, h⟩ := bind_eq_ok_iff.mp h
    simp only at h
    split at h
    · cases h
    · rename_i hnames
      obtain ⟨filter, htype, h⟩ := bind_eq_ok_iff.mp h
      cases h
      simp only [Bool.or_eq_true, List.isEmpty_iff, not_or] at hnames
      refine ⟨⟨String.ofList source, String.ofList target, filter⟩, ⟨?_, ?_, type, ?_, ?_⟩, rfl⟩
      · simpa using hnames.1
      · simpa using hnames.2
      · simpa using parts_eq_ok_iff.mp hparts
      · exact labelOf_eq_ok_iff.mp htype
  · rintro ⟨x, ⟨hsource, htarget, type, hparts, htype⟩, rfl⟩
    refine bind_eq_ok_iff.mpr ⟨_, parts_eq_ok_iff.mpr hparts, ?_⟩
    simp only
    rw [if_neg (by simp [hsource, htarget])]
    refine bind_eq_ok_iff.mpr ⟨x.filter, labelOf_eq_ok_iff.mpr htype, ?_⟩
    simp
    rfl

theorem foldlM_addSpec_eq_ok_iff : specs.foldlM addSpec p = .ok p' ↔
    ∃ named, List.Forall₂ Stands specs named ∧
      p' = named.foldl (fun p x => p.addEdge x.source x.target x.filter) p := by
  induction specs generalizing p with
  | nil => simp [pure, Except.pure, eq_comm]
  | cons spec rest ih =>
    rw [List.foldlM_cons, bind_eq_ok_iff]
    simp only [addSpec_eq_ok_iff, ih, List.forall₂_cons_left_iff]
    constructor
    · rintro ⟨next, ⟨x, hx, rfl⟩, named, hnamed, rfl⟩
      exact ⟨x :: named, ⟨x, named, hx, hnamed, rfl⟩, rfl⟩
    · rintro ⟨-, ⟨x, named, hx, hnamed, rfl⟩, rfl⟩
      exact ⟨_, ⟨x, hx, rfl⟩, named, hnamed, rfl⟩

/-- **What is read is the pattern of the edges that the specifications stand for**, if the
planner validates it. -/
theorem ofSpecs_eq_ok_iff : ofSpecs specs = .ok p ↔
    ∃ named, List.Forall₂ Stands specs named ∧ p = ofNamed named ∧ p.validate = .ok () := by
  rw [ofSpecs]
  constructor
  · intro h
    split at h
    · cases h
    · rename_i p' hfold
      split at h
      · cases h
      · rename_i hvalid
        cases h
        obtain ⟨named, hnamed, heq⟩ := foldlM_addSpec_eq_ok_iff.mp hfold
        exact ⟨named, hnamed, heq, hvalid⟩
  · rintro ⟨named, hnamed, heq, hvalid⟩
    rw [foldlM_addSpec_eq_ok_iff.mpr ⟨named, hnamed, heq⟩]
    simp only [hvalid]

/-- **A pattern that was read is fit for planning.** -/
theorem of_ofSpecs (h : ofSpecs specs = .ok p) : p.InRange ∧ p.validate = .ok () := by
  obtain ⟨named, -, rfl, hvalid⟩ := ofSpecs_eq_ok_iff.mp h
  exact ⟨(describes_ofNamed named).inRange, hvalid⟩

/-! ## Writing -/

/-- A label that may be stored is written as a numeral without a sign. -/
theorem text_of_nonneg {l : Label} (h : 0 ≤ l.code.toInt) : l.text = toString l.code.toInt := by
  rw [Label.text, Label.isAny_of_nonneg h]
  rfl

/-- **An edge that was read is written as a specification that stands for it.** -/
theorem stands_specOf {e : PatternEdge} (he : e.Resolves p.vars x) (hx : Stands spec x) :
    Stands (p.specOf e) x := by
  obtain ⟨hsource, htarget, type, hparts, htype⟩ := hx
  have hsourcePart := hparts.part List.mem_cons_self
  have htargetPart := hparts.part (List.mem_cons_of_mem _ List.mem_cons_self)
  rw [specOf, varName_of_getElem? he.source, varName_of_getElem? he.target, he.filter]
  refine ⟨hsource, htarget, ?_⟩
  cases type with
  | none =>
    have hany : x.filter = .any := htype
    rw [hany, if_pos (Label.isAny_iff.mpr rfl)]
    exact ⟨none, consists_intercalate (by simp [hsourcePart, htargetPart]), rfl⟩
  | some cs =>
    obtain ⟨-, hcode⟩ := htype
    have hnumeral : Numeral.Signed x.filter.text.toList x.filter.code.toInt := by
      rw [text_of_nonneg hcode]
      exact Numeral.signed_toString _
    have htypePart := part_of_signed hnumeral
    refine ⟨some x.filter.text.toList, ?_, hnumeral, hcode⟩
    rw [Label.isAny_of_nonneg hcode]
    exact consists_intercalate (by simp [hsourcePart, htargetPart, htypePart])

theorem forall₂_stands_specs (hp : p.Describes named) (h : List.Forall₂ Stands specs named) :
    List.Forall₂ Stands p.specs named := by
  have hstands : ∀ x ∈ named, ∃ spec, Stands spec x := fun x hx =>
    ((exists_of_forall₂ h).2 x hx).imp fun _ hspec => hspec.2
  -- a specification of the edge is at hand, though not at the same place in a list
  have hedges := (List.forall₂_and_left _ _).mpr ⟨hstands, hp.edges.flip⟩
  rw [Pattern.specs, List.forall₂_map_left_iff]
  exact hedges.flip.imp fun e x hx => hx.1.elim fun spec hspec => stands_specOf hx.2 hspec

/-- **Specifications make up a pattern exactly where each of them stands for an edge between
two names**, there is one, none names a variable twice, and the variables are in one piece. The
pattern has the names for variables, in the order of their first use, and an edge for each
specification. Written as specifications and read again, it is the same pattern. -/
theorem ofSpecs_exact (specs : List String) :
    ((∃ p, ofSpecs specs = .ok p) ↔ specs ≠ [] ∧ ∃ named, List.Forall₂ Stands specs named ∧
      (∀ x ∈ named, x.source ≠ x.target) ∧ Connected named) ∧
    ∀ p, ofSpecs specs = .ok p →
      (∃ named, List.Forall₂ Stands specs named ∧ p.Describes named) ∧
        ofSpecs p.specs = .ok p := by
  have hempty : ∀ {named}, List.Forall₂ Stands specs named → (specs ≠ [] ↔ named ≠ []) := by
    intro named hnamed
    rw [← List.length_pos_iff, ← List.length_pos_iff, hnamed.length_eq]
  refine ⟨⟨?_, ?_⟩, fun p hp => ?_⟩
  · rintro ⟨p, hp⟩
    obtain ⟨named, hnamed, rfl, hvalid⟩ := ofSpecs_eq_ok_iff.mp hp
    obtain ⟨hne, hloop, hconnected⟩ := (describes_ofNamed named).validate_iff.mp hvalid
    exact ⟨(hempty hnamed).mpr hne, named, hnamed, hloop, hconnected⟩
  · rintro ⟨hne, named, hnamed, hloop, hconnected⟩
    have hvalid := (describes_ofNamed named).validate_iff.mpr
      ⟨(hempty hnamed).mp hne, hloop, hconnected⟩
    exact ⟨_, ofSpecs_eq_ok_iff.mpr ⟨named, hnamed, rfl, hvalid⟩⟩
  · obtain ⟨named, hnamed, rfl, hvalid⟩ := ofSpecs_eq_ok_iff.mp hp
    have hdescribes := describes_ofNamed named
    refine ⟨⟨named, hnamed, hdescribes⟩, ofSpecs_eq_ok_iff.mpr ⟨named, ?_, rfl, hvalid⟩⟩
    exact forall₂_stands_specs hdescribes hnamed

/-- Names under blanks of their own, and types with and without a sign. -/
theorem ofSpecs_exact_spelled :
    ∃ p, ofSpecs [" a : b", "b:c:+03", "c\u3000:a:-0"] = .ok p ∧
      p = ⟨["a", "b", "c"], [⟨0, 1, .any⟩, ⟨1, 2, ⟨3⟩⟩, ⟨2, 0, .plain⟩]⟩ ∧
      p.specs = ["a:b", "b:c:3", "c:a:0"] ∧ ofSpecs p.specs = .ok p := by
  obtain ⟨-, hread⟩ := ofSpecs_exact [" a : b", "b:c:+03", "c\u3000:a:-0"]
  obtain ⟨-, hagain⟩ := hread _ rfl
  exact ⟨_, rfl, rfl, rfl, hagain⟩

end Pattern
end DeltaMatch
