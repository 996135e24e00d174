import DeltaMatch.EdgeSpec
import DeltaMatch.Proofs.Results
import DeltaMatch.Proofs.Text

/-!
# What specifications stand for

A specification is made up of two or three parts, and its type is a numeral that is not
negative. So it never stands for an edge under the wildcard: what can be read can be stored.
-/

namespace DeltaMatch

theorem Label.isAny_of_nonneg {l : Label} (h : 0 ≤ l.code.toInt) : l.isAny = false := by
  rw [Bool.eq_false_iff, Ne, isAny_iff]
  rintro rfl
  exact absurd h (by decide)

/-! ## Parts -/

namespace EdgeSpec

variable {spec : String} {source target cs : List Char} {type : Option (List Char)}
  {absent l : Label}

/-- The specification is made up of the parts, with a separator between any two of them and
perhaps blanks around each. -/
def Consists (spec : String) (parts : List (List Char)) : Prop :=
  ∃ pieces, [':'].intercalate pieces = spec.toList ∧ (∀ piece ∈ pieces, ':' ∉ piece) ∧
    List.Forall₂ Trimmed pieces parts

/-- What the type of a specification stands for: without one the given label, else the label
whose code it is a numeral for, which must not be negative. -/
def TypeReads (absent : Label) : Option (List Char) → Label → Prop
  | none, l => l = absent
  | some cs, l => Numeral.Signed cs l.code.toInt ∧ 0 ≤ l.code.toInt

/-- A part has no separator in it and no blanks around it. -/
theorem Consists.part {parts : List (List Char)} (h : Consists spec parts) {part : List Char}
    (hpart : part ∈ parts) : ':' ∉ part ∧ Trimmed part part := by
  obtain ⟨pieces, -, hfree, htrimmed⟩ := h
  obtain ⟨piece, hpiece, htrim⟩ := (exists_of_forall₂ htrimmed).2 part hpart
  exact ⟨fun hmem => hfree piece hpiece (htrim.subset hmem), htrim.refl⟩

/-- A numeral has no separator in it and no blanks around it. -/
theorem part_of_signed {n : Int} (h : Numeral.Signed cs n) : ':' ∉ cs ∧ Trimmed cs cs :=
  ⟨fun hmem => absurd (h.mem hmem) (by decide), trimmed_of_not_blank h.isBlank⟩

/-- Parts that are written one after the other make up a specification. -/
theorem consists_intercalate {texts : List String} {parts : List (List Char)}
    (h : List.Forall₂ (fun text part => ':' ∉ text.toList ∧ Trimmed text.toList part)
      texts parts) : Consists (":".intercalate texts) parts := by
  refine ⟨texts.map String.toList, ?_, fun piece hpiece => ?_, ?_⟩
  · rw [String.toList_intercalate]
    rfl
  · obtain ⟨text, htext, rfl⟩ := List.mem_map.mp hpiece
    obtain ⟨part, -, hfree, -⟩ := (exists_of_forall₂ h).1 text htext
    exact hfree
  · rw [List.forall₂_map_left_iff]
    exact h.imp fun text part hpart => hpart.2

theorem map_trim_splitOn_eq_iff {parts : List (List Char)} (hne : parts ≠ []) :
    (spec.toList.splitOn ':').map trim = parts ↔ Consists spec parts := by
  have hmap : ∀ {pieces : List (List Char)},
      pieces.map trim = parts ↔ List.Forall₂ Trimmed pieces parts := by
    intro pieces
    rw [← List.forall₂_eq_eq_eq, List.forall₂_map_left_iff]
    simp only [trim_eq_iff]
  constructor
  · intro h
    obtain ⟨hjoin, hfree⟩ := (splitOn_eq_iff (List.splitOn_ne_nil ':' spec.toList)).mp rfl
    exact ⟨_, hjoin, hfree, hmap.mp h⟩
  · rintro ⟨pieces, hjoin, hfree, htrimmed⟩
    have hpieces : pieces ≠ [] := by
      rintro rfl
      exact hne (List.forall₂_nil_left_iff.mp htrimmed)
    rw [(splitOn_eq_iff hpieces).mpr ⟨hjoin, hfree⟩]
    exact hmap.mpr htrimmed

/-- **A specification is taken apart where it has two or three parts.** -/
theorem parts_eq_ok_iff : parts spec = .ok (source, target, type) ↔
    Consists spec (source :: target :: type.toList) := by
  rw [← map_trim_splitOn_eq_iff (List.cons_ne_nil _ _), parts]
  constructor
  · intro h
    split at h
    · rename_i hsplit
      cases h
      exact hsplit
    · rename_i hsplit
      cases h
      exact hsplit
    · cases h
  · intro h
    rw [h]
    cases type with
    | none => rfl
    | some type => rfl

theorem storedLabel?_eq_some_iff :
    storedLabel? cs = some l ↔ Numeral.Signed cs l.code.toInt ∧ 0 ≤ l.code.toInt := by
  rw [storedLabel?, Option.bind_eq_some_iff]
  simp only [Numeral.int16?_eq_some_iff, Int16.le_iff_toInt_le]
  constructor
  · rintro ⟨code, hsigned, h⟩
    split at h
    · rename_i hcode
      cases h
      exact ⟨hsigned, hcode⟩
    · cases h
  · rintro ⟨hsigned, hcode⟩
    exact ⟨l.code, hsigned, if_pos hcode⟩

theorem labelOf_eq_ok_iff : labelOf spec absent type = .ok l ↔ TypeReads absent type l := by
  cases type with
  | none => simp [labelOf, TypeReads, eq_comm]
  | some cs =>
    rw [TypeReads, ← storedLabel?_eq_some_iff, labelOf]
    cases storedLabel? cs with
    | none => exact ⟨nofun, nofun⟩
    | some stored => simp

theorem isAny_storedLabel? (h : storedLabel? cs = some l) : l.isAny = false :=
  Label.isAny_of_nonneg (storedLabel?_eq_some_iff.mp h).2

/-! ## Edges -/

/-- The specification stands for the edge: its vertices are numerals for the endpoints, and its
type is one for the label, or is left out where that is the plain one. -/
def Denotes (spec : String) (e : Edge) : Prop :=
  ∃ source target type, Consists spec (source :: target :: type.toList) ∧
    Numeral.Unsigned source e.source.toNat ∧ Numeral.Unsigned target e.target.toNat ∧
      TypeReads .plain type e.label

theorem vertexOf_eq_ok_iff {v : VertexId} :
    vertexOf spec cs = .ok v ↔ Numeral.Unsigned cs v.toNat := by
  rw [vertexOf, ← Numeral.word32?_eq_some_iff]
  cases Numeral.word32? cs with
  | none => exact ⟨nofun, nofun⟩
  | some v' => simp

/-- **A specification is read as the edge that it stands for**, and only then. -/
theorem ofSpec_eq_ok_iff {e : Edge} : Edge.ofSpec spec = .ok e ↔ Denotes spec e := by
  constructor
  · intro h
    obtain ⟨⟨source, target, type⟩, hparts, h⟩ := bind_eq_ok_iff.mp h
    obtain ⟨label, hlabel, h⟩ := bind_eq_ok_iff.mp h
    obtain ⟨from', hsource, h⟩ := bind_eq_ok_iff.mp h
    obtain ⟨to', htarget, h⟩ := bind_eq_ok_iff.mp h
    cases h
    exact ⟨source, target, type, parts_eq_ok_iff.mp hparts, vertexOf_eq_ok_iff.mp hsource,
      vertexOf_eq_ok_iff.mp htarget, labelOf_eq_ok_iff.mp hlabel⟩
  · rintro ⟨source, target, type, hparts, hsource, htarget, hlabel⟩
    refine bind_eq_ok_iff.mpr ⟨_, parts_eq_ok_iff.mpr hparts, ?_⟩
    refine bind_eq_ok_iff.mpr ⟨_, labelOf_eq_ok_iff.mpr hlabel, ?_⟩
    refine bind_eq_ok_iff.mpr ⟨_, vertexOf_eq_ok_iff.mpr hsource, ?_⟩
    exact bind_eq_ok_iff.mpr ⟨_, vertexOf_eq_ok_iff.mpr htarget, rfl⟩

end EdgeSpec

/-- An edge that was read can be stored. -/
theorem Edge.isAny_ofSpec {spec : String} {e : Edge} (h : Edge.ofSpec spec = .ok e) :
    e.label.isAny = false := by
  obtain ⟨source, target, type, -, -, -, hreads⟩ := EdgeSpec.ofSpec_eq_ok_iff.mp h
  cases type with
  | none => exact hreads ▸ rfl
  | some cs => exact Label.isAny_of_nonneg hreads.2

namespace EdgeSpec

variable {spec : String} {e : Edge} {err : SpecError}

/-- Why a specification stands for no edge: its shape, its type, its source and its target are
looked at in this order. -/
inductive Fault (spec : String) : SpecError → Prop
  | shape : (∀ source target (type : Option (List Char)),
      ¬ Consists spec (source :: target :: type.toList)) → Fault spec (.shape spec)
  | label {source target part : List Char} : Consists spec [source, target, part] →
      (∀ l, ¬ TypeReads .plain (some part) l) → Fault spec (.label (String.ofList part) spec)
  | source {source target : List Char} {type : Option (List Char)} {l : Label} :
      Consists spec (source :: target :: type.toList) → TypeReads .plain type l →
      (∀ v : VertexId, ¬ Numeral.Unsigned source v.toNat) →
      Fault spec (.vertex (String.ofList source) spec)
  | target {source target : List Char} {type : Option (List Char)} {l : Label} {v : VertexId} :
      Consists spec (source :: target :: type.toList) → TypeReads .plain type l →
      Numeral.Unsigned source v.toNat → (∀ v : VertexId, ¬ Numeral.Unsigned target v.toNat) →
      Fault spec (.vertex (String.ofList target) spec)

theorem parts_eq_error_iff : parts spec = .error err ↔
    (∀ source target (type : Option (List Char)),
      ¬ Consists spec (source :: target :: type.toList)) ∧ err = .shape spec := by
  have honly : ∀ err, parts spec = .error err → err = .shape spec := by
    intro err h
    rw [parts] at h
    split at h <;> cases h
    rfl
  rw [eq_error_iff honly]
  simp only [← parts_eq_ok_iff, Prod.forall, ne_eq]

theorem labelOf_eq_error_iff {absent : Label} {type : Option (List Char)} :
    labelOf spec absent type = .error err ↔ ∃ part, type = some part ∧
      (∀ l, ¬ TypeReads absent (some part) l) ∧ err = .label (String.ofList part) spec := by
  cases type with
  | none => simp [labelOf]
  | some part =>
    have honly : ∀ err, labelOf spec absent (some part) = .error err →
        err = .label (String.ofList part) spec := by
      intro err h
      rw [labelOf] at h
      split at h <;> cases h
      rfl
    rw [eq_error_iff honly]
    simp [labelOf_eq_ok_iff]

theorem vertexOf_eq_error_iff {cs : List Char} : vertexOf spec cs = .error err ↔
    (∀ v : VertexId, ¬ Numeral.Unsigned cs v.toNat) ∧
      err = .vertex (String.ofList cs) spec := by
  have honly : ∀ err, vertexOf spec cs = .error err → err = .vertex (String.ofList cs) spec := by
    intro err h
    rw [vertexOf] at h
    split at h <;> cases h
    rfl
  rw [eq_error_iff honly]
  simp [vertexOf_eq_ok_iff]

/-- **A specification that stands for no edge is turned down** for its first fault. -/
theorem ofSpec_eq_error_iff : Edge.ofSpec spec = .error err ↔ Fault spec err := by
  constructor
  · intro h
    rcases bind_eq_error_iff.mp h with hparts | ⟨⟨source, target, type⟩, hparts, h⟩
    · obtain ⟨hshape, rfl⟩ := parts_eq_error_iff.mp hparts
      exact .shape hshape
    have hconsists := parts_eq_ok_iff.mp hparts
    rcases bind_eq_error_iff.mp h with hlabel | ⟨label, hlabel, h⟩
    · obtain ⟨part, rfl, hnone, rfl⟩ := labelOf_eq_error_iff.mp hlabel
      exact .label hconsists hnone
    have hreads := labelOf_eq_ok_iff.mp hlabel
    rcases bind_eq_error_iff.mp h with hsource | ⟨v, hsource, h⟩
    · obtain ⟨hnone, rfl⟩ := vertexOf_eq_error_iff.mp hsource
      exact .source hconsists hreads hnone
    rcases bind_eq_error_iff.mp h with htarget | ⟨w, -, h⟩
    · obtain ⟨hnone, rfl⟩ := vertexOf_eq_error_iff.mp htarget
      exact .target hconsists hreads (vertexOf_eq_ok_iff.mp hsource) hnone
    · cases h
  · intro h
    cases h with
    | shape hshape => exact bind_eq_error_iff.mpr (.inl (parts_eq_error_iff.mpr ⟨hshape, rfl⟩))
    | label hconsists hnone =>
      have hparts : parts spec = .ok (_, _, some _) := parts_eq_ok_iff.mpr hconsists
      refine bind_eq_error_iff.mpr (.inr ⟨_, hparts, ?_⟩)
      exact bind_eq_error_iff.mpr (.inl (labelOf_eq_error_iff.mpr ⟨_, rfl, hnone, rfl⟩))
    | source hconsists hreads hnone =>
      refine bind_eq_error_iff.mpr (.inr ⟨_, parts_eq_ok_iff.mpr hconsists, ?_⟩)
      refine bind_eq_error_iff.mpr (.inr ⟨_, labelOf_eq_ok_iff.mpr hreads, ?_⟩)
      exact bind_eq_error_iff.mpr (.inl (vertexOf_eq_error_iff.mpr ⟨hnone, rfl⟩))
    | target hconsists hreads hsource hnone =>
      refine bind_eq_error_iff.mpr (.inr ⟨_, parts_eq_ok_iff.mpr hconsists, ?_⟩)
      refine bind_eq_error_iff.mpr (.inr ⟨_, labelOf_eq_ok_iff.mpr hreads, ?_⟩)
      refine bind_eq_error_iff.mpr (.inr ⟨_, vertexOf_eq_ok_iff.mpr hsource, ?_⟩)
      exact bind_eq_error_iff.mpr (.inl (vertexOf_eq_error_iff.mpr ⟨hnone, rfl⟩))

/-! ## Written edges -/

/-- Numerals with blanks around them make up a specification. -/
theorem consists_of_padded {texts : List String} {parts : List (List Char)}
    (hpadded : List.Forall₂ (fun text part => Padded part text.toList) texts parts)
    (hparts : ∀ part ∈ parts, ∃ n, Numeral.Signed part n) :
    Consists (":".intercalate texts) parts := by
  have hboth := (List.forall₂_and_left _ _).mpr ⟨hparts, hpadded.flip⟩
  refine consists_intercalate (hboth.flip.imp fun text part h => ?_)
  obtain ⟨⟨n, hn⟩, hpad⟩ := h
  obtain ⟨hfree, htrimmed⟩ := part_of_signed hn
  refine ⟨fun hmem => ?_, Padded.trimmed hpad htrimmed⟩
  rcases Padded.mem hpad hmem with hmem | hblank
  · exact hfree hmem
  · exact absurd hblank (by decide)

/-- The texts are the numbers of the endpoints, with blanks around them. -/
structure Spelled (e : Edge) (source target : String) : Prop where
  source : Padded (toString e.source.toNat).toList source.toList
  target : Padded (toString e.target.toNat).toList target.toList

/-- Written numbers stand for their edge, whose type may be left out where it is the plain
one. -/
theorem Spelled.denotes {source target : String} (h : Spelled e source target) :
    (∀ type : String, 0 ≤ e.label.code.toInt →
      Padded (toString e.label.code.toInt).toList type.toList →
        Denotes (source ++ ":" ++ target ++ ":" ++ type) e) ∧
    (e.label = .plain → Denotes (source ++ ":" ++ target) e) := by
  have hsource := Numeral.unsigned_toString e.source.toNat
  have htarget := Numeral.unsigned_toString e.target.toNat
  constructor
  · intro type hcode htype
    have hlabel := Numeral.signed_toString e.label.code.toInt
    have hconsists := consists_of_padded (.cons h.source (.cons h.target (.cons htype .nil))) (by
      simp only [List.forall_mem_cons]
      exact ⟨⟨_, hsource.signed⟩, ⟨_, htarget.signed⟩, ⟨_, hlabel⟩, List.forall_mem_nil _⟩)
    exact ⟨_, _, some _, hconsists, hsource, htarget, hlabel, hcode⟩
  · intro hplain
    have hconsists := consists_of_padded (.cons h.source (.cons h.target .nil)) (by
      simp only [List.forall_mem_cons]
      exact ⟨⟨_, hsource.signed⟩, ⟨_, htarget.signed⟩, List.forall_mem_nil _⟩)
    exact ⟨_, _, none, hconsists, hsource, htarget, hplain⟩

end EdgeSpec

namespace Edge

open EdgeSpec

/-- **An edge is read exactly from the specifications that stand for it**, and from every one
that is written with its numbers, whatever blanks are around them. All other specifications are
turned down for their first fault. -/
theorem ofSpec_exact :
    (∀ spec e, ofSpec spec = .ok e ↔ Denotes spec e) ∧
    (∀ spec, (∃ err, ofSpec spec = .error err) ↔ ¬ ∃ e, Denotes spec e) ∧
    (∀ spec err, ofSpec spec = .error err ↔ Fault spec err) ∧
    ∀ e source target, Spelled e source target →
      (∀ type : String, 0 ≤ e.label.code.toInt →
        Padded (toString e.label.code.toInt).toList type.toList →
          ofSpec (source ++ ":" ++ target ++ ":" ++ type) = .ok e) ∧
      (e.label = .plain → ofSpec (source ++ ":" ++ target) = .ok e) := by
  refine ⟨fun spec e => ofSpec_eq_ok_iff, fun spec => ?_, fun spec err => ofSpec_eq_error_iff,
    fun e source target hspelled => ⟨fun type hcode htype => ?_, fun hplain => ?_⟩⟩
  · simp only [← ofSpec_eq_ok_iff]
    cases ofSpec spec with
    | error err => simp
    | ok e => simp
  · exact ofSpec_eq_ok_iff.mpr (hspelled.denotes.1 type hcode htype)
  · exact ofSpec_eq_ok_iff.mpr (hspelled.denotes.2 hplain)

/-- The highest numbers between blanks, signs and leading zeros, and a number that is one too
high. -/
theorem ofSpec_exact_spelled :
    ofSpec (" 4294967295" ++ ":" ++ "0\t" ++ ":" ++ "\u300032767 ") =
        .ok ⟨4294967295, 0, ⟨32767⟩⟩ ∧
      Denotes "+007:12:-0" ⟨7, 12, .plain⟩ ∧ (¬ ∃ e, Denotes "7:12:+" e) ∧
      Fault "7:4294967296" (.vertex "4294967296" "7:4294967296") := by
  obtain ⟨hread, hrefused, hfault, hwritten⟩ := ofSpec_exact
  have hspelled : Spelled ⟨4294967295, 0, ⟨32767⟩⟩ " 4294967295" "0\t" :=
    ⟨⟨[' '], [], by decide, by simp [isBlank], nofun⟩,
      ⟨[], ['\t'], by decide, nofun, by simp [isBlank]⟩⟩
  refine ⟨(hwritten _ _ _ hspelled).1 _ (by decide) ?_, (hread _ _).mp (by decide),
    (hrefused _).mp ⟨.label "+" "7:12:+", by decide⟩, (hfault _ _).mp (by decide)⟩
  exact ⟨['\u3000'], [' '], by decide, by simp [isBlank], by simp [isBlank]⟩

end Edge

end DeltaMatch
