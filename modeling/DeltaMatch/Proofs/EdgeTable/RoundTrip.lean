import DeltaMatch.Proofs.EdgeTable
import DeltaMatch.Proofs.Text.Delimited

/-!
# Written edge tables

A table with a line of numerals for each edge is read back as those edges, whatever character
is between the numerals, unless an edge has a label that cannot be stored: then the row of the
first such edge is reported. Without its type column the same table is one of plain edges.
-/

namespace DeltaMatch
namespace EdgeTable

variable {d : Char} {e : Edge} {edges : List Edge} {row : List (List Char)}
  {rows : List (List (List Char))} {text : List Char}

/-! ## Rows of numerals -/

/-- The row has numerals for the endpoints and the label of the edge. -/
inductive Spells (e : Edge) : List (List Char) → Prop
  | numerals {source target label : List Char} : Numeral.Unsigned source e.source.toNat →
      Numeral.Unsigned target e.target.toNat → Numeral.Signed label e.label.code.toInt →
        Spells e [source, target, label]

/-- The character means nothing in a table of numerals. -/
structure Meaningless (d : Char) : Prop where
  not_alphanum : d.isAlphanum = false
  not_special : d ∉ ['+', '-', '"', '\r', '\n']

/-- The header over the numerals. -/
def header : List (List Char) := ["from".toList, "to".toList, "type".toList]

theorem Spells.signed (h : Spells e row) : ∀ field ∈ row, ∃ n, Numeral.Signed field n := by
  cases h with
  | numerals hsource htarget hlabel =>
    simp only [List.forall_mem_cons]
    exact ⟨⟨_, hsource.signed⟩, ⟨_, htarget.signed⟩, ⟨_, hlabel⟩, List.forall_mem_nil _⟩

namespace Meaningless

theorem isDelimiter (hd : Meaningless d) (hascii : IsAscii d) : Delimited.IsDelimiter d := by
  have hspecial := hd.not_special
  simp only [List.mem_cons, not_or] at hspecial
  obtain ⟨-, -, hquote, hreturn, hfeed, -⟩ := hspecial
  exact ⟨hascii, hquote, hfeed, hreturn⟩

/-- Rows of letters, digits and signs need no quotes. -/
theorem plain (hd : Meaningless d) (hne : row ≠ []) (hblank : row ≠ [[]])
    (hrow : ∀ field ∈ row, ∀ c ∈ field, c.isAlphanum = true ∨ c = '+' ∨ c = '-') :
    Delimited.Plain d row := by
  refine ⟨hne, hblank, fun field hfield c hc => ?_⟩
  have hspecial := hd.not_special
  simp only [List.mem_cons, not_or] at hspecial
  rcases hrow field hfield c hc with halphanum | rfl | rfl
  · have hother : ∀ c', c'.isAlphanum = false → c ≠ c' := by
      rintro c' hc' rfl
      rw [halphanum] at hc'
      cases hc'
    exact ⟨hother d hd.not_alphanum, hother _ rfl, hother _ rfl, hother _ rfl⟩
  · exact ⟨Ne.symm hspecial.1, by decide, by decide, by decide⟩
  · exact ⟨Ne.symm hspecial.2.1, by decide, by decide, by decide⟩

theorem plain_spelled (hd : Meaningless d) (h : Spells e row) : Delimited.Plain d row := by
  have hrow : ∀ field ∈ row, ∀ c ∈ field, c.isAlphanum = true ∨ c = '+' ∨ c = '-' := by
    intro field hfield c hc
    obtain ⟨n, hsigned⟩ := h.signed field hfield
    refine (hsigned.mem hc).imp_left fun hdigit => ?_
    rw [Char.isAlphanum, hdigit, Bool.or_true]
  cases h with
  | numerals => exact hd.plain (List.cons_ne_nil _ _) nofun hrow

theorem plain_header (hd : Meaningless d) : Delimited.Plain d header := by
  have hall : (header.all fun field => field.all Char.isAlphanum) = true := by decide
  refine hd.plain (List.cons_ne_nil _ _) nofun fun field hfield c hc => ?_
  exact .inl (List.all_eq_true.mp (List.all_eq_true.mp hall field hfield) c hc)

end Meaningless

/-! ## Reading rows of numerals -/

/-- The text of a record is its fields, trimmed. -/
theorem textOf_bytesOf (row : List (List Char)) :
    textOf (row.map bytesOf) = .ok (row.map trim) := by
  rw [textOf, mapM_eq_ok_iff, List.forall₂_map_left_iff, List.forall₂_map_right_iff,
    List.forall₂_same]
  intro field _
  simp only [fromUTF8?_bytesOf, String.toList_ofList]

theorem Spells.textOf (h : Spells e row) : textOf (row.map bytesOf) = .ok row := by
  rw [textOf_bytesOf]
  refine congrArg _ ((List.map_congr_left fun field hfield => ?_).trans (List.map_id row))
  obtain ⟨n, hsigned⟩ := h.signed field hfield
  exact trim_eq_iff.mpr (trimmed_of_not_blank hsigned.isBlank)

theorem textOf_header : EdgeTable.textOf (header.map bytesOf) = .ok header := by
  rw [textOf_bytesOf]
  rfl

theorem valueOf_eq_ok_iff {column : Nat} {name : String} {value : List Char} :
    valueOf row column name = .ok value ↔ row[column]? = some value ∧ value ≠ [] := by
  rw [valueOf]
  cases row[column]? with
  | none => exact iff_of_false nofun nofun
  | some found =>
    cases found with
    | nil => exact iff_of_false nofun fun h => h.2 (Option.some.inj h.1).symm
    | cons c rest =>
      constructor
      · intro h
        cases h
        exact ⟨rfl, List.cons_ne_nil c rest⟩
      · rintro ⟨h, -⟩
        exact congrArg _ (Option.some.inj h)

/-- Numerals for the endpoints are read, whatever the columns are called. -/
theorem Spells.vertexOf (h : Spells e row) (sourceName targetName : String) (number : Nat) :
    vertexOf row 0 sourceName number = .ok e.source ∧
      vertexOf row 1 targetName number = .ok e.target := by
  cases h with
  | numerals hsource htarget =>
    constructor
    · exact vertexOf_eq_ok_iff.mpr ⟨_, valueOf_eq_ok_iff.mpr ⟨rfl, hsource.signed.ne_nil⟩,
        Numeral.word32?_eq_some_iff.mpr hsource⟩
    · exact vertexOf_eq_ok_iff.mpr ⟨_, valueOf_eq_ok_iff.mpr ⟨rfl, htarget.signed.ne_nil⟩,
        Numeral.word32?_eq_some_iff.mpr htarget⟩

/-- A numeral for a label that cannot be stored is refused. -/
theorem labelOf_negative {column number : Nat} {name : String} {value : List Char} {code : Int16}
    (hvalue : row[column]? = some value) (hnumeral : Numeral.Signed value code.toInt)
    (hcode : code.toInt < 0) :
    labelOf row column name number = .error (.label number (String.ofList value)) := by
  have hnegative : ¬ 0 ≤ code := mt Int16.le_iff_toInt_le.mp (Int.not_le.mpr hcode)
  have hnone : EdgeSpec.storedLabel? value = none := by
    rw [EdgeSpec.storedLabel?, Numeral.int16?_eq_some_iff.mpr hnumeral, Option.bind_some,
      if_neg hnegative]
  rw [labelOf, bind_eq_error_iff]
  exact .inr ⟨value, valueOf_eq_ok_iff.mpr ⟨hvalue, hnumeral.ne_nil⟩, by rw [hnone]; rfl⟩

/-- The columns of a table of numerals, with its types or without them. -/
def numeralColumns (label : Option String) : Columns := ⟨0, 1, label.map fun name => (2, name)⟩

theorem find_header (label : Option String) (hlabel : ∀ name ∈ label, name = "type")
    (delimiter : UInt8) : Columns.find { labelColumn := label, delimiter } header =
      .ok (numeralColumns label) := by
  have hsource : columnOf header "from" = .ok 0 := by decide
  have htarget : columnOf header "to" = .ok 1 := by decide
  have htype : columnOf header "type" = .ok 2 := by decide
  cases label with
  | none => simp only [Columns.find, hsource, htarget, bind, Except.bind, pure, Except.pure]; rfl
  | some name =>
    obtain rfl := hlabel name rfl
    simp only [Columns.find, hsource, htarget, htype, bind, Except.bind]
    rfl

variable {layout : Layout} {number : Nat} {name : String} {source target label : List Char}

/-- Without its type a row of numerals stands for a plain edge. -/
theorem Spells.reads_untyped (h : Spells e row) :
    Reads layout (numeralColumns none) { e with label := .plain } (row.map bytesOf) := by
  obtain ⟨hsource, htarget⟩ := h.vertexOf layout.sourceColumn layout.targetColumn 0
  exact ⟨row, h.textOf, vertexOf_eq_ok_iff.mp hsource, vertexOf_eq_ok_iff.mp htarget, rfl⟩

/-- With its type the row stands for the edge, if that can be stored. -/
theorem Spells.reads_typed (h : Spells e row) (hcode : 0 ≤ e.label.code.toInt) :
    Reads layout (numeralColumns (some name)) e (row.map bytesOf) := by
  obtain ⟨hsource, htarget⟩ := h.vertexOf layout.sourceColumn layout.targetColumn 0
  have hlabel : HasLabel (numeralColumns (some name)) row e.label := by
    cases h with
    | numerals _ _ hlabel => exact ⟨_, valueOf_eq_ok_iff.mpr ⟨rfl, hlabel.ne_nil⟩,
        EdgeSpec.storedLabel?_eq_some_iff.mpr ⟨hlabel, hcode⟩⟩
  exact ⟨row, h.textOf, vertexOf_eq_ok_iff.mp hsource, vertexOf_eq_ok_iff.mp htarget, hlabel⟩

/-- Otherwise the row is refused for its type. -/
theorem Spells.edgeOf_negative (h : Spells e [source, target, label])
    (hcode : e.label.code.toInt < 0) :
    edgeOf layout (numeralColumns (some name)) number [source, target, label] =
      .error (.label number (String.ofList label)) := by
  obtain ⟨hsource, htarget⟩ := h.vertexOf layout.sourceColumn layout.targetColumn number
  cases h with
  | numerals _ _ hlabel =>
    refine bind_eq_error_iff.mpr (.inr ⟨_, hsource, ?_⟩)
    refine bind_eq_error_iff.mpr (.inr ⟨_, htarget, ?_⟩)
    exact bind_eq_error_iff.mpr (.inl (labelOf_negative rfl hlabel hcode))

/-! ## Tables of numerals -/

theorem isAscii_head? (h : Delimited.Tabulates d (header :: rows) text) :
    ∀ c ∈ text.head?, IsAscii c := by
  have hfirst : text.head? = some 'f' := by
    cases h with
    | last => rfl
    | cons => rfl
  rw [hfirst]
  rintro c ⟨⟩
  decide

/-- The layout of a table of numerals. -/
def numeralLayout (label : Option String) (d : Char) : Layout :=
  { labelColumn := label, delimiter := d.toNat.toUInt8 }

theorem records_of_numerals (hd : Meaningless d) (hascii : IsAscii d)
    (h : Delimited.Tabulates d (header :: rows) text) (hrows : List.Forall₂ Spells edges rows) :
    Delimited.records d.toNat.toUInt8 (bytesOf text) = (header :: rows).map (·.map bytesOf) := by
  have hplain : ∀ row ∈ header :: rows, Delimited.Plain d row := by
    refine List.forall_mem_cons.mpr ⟨hd.plain_header, fun row hrow => ?_⟩
    obtain ⟨e, -, hspells⟩ := (exists_of_forall₂ hrows).2 row hrow
    exact hd.plain_spelled hspells
  exact Delimited.records_of_tabulates (hd.isDelimiter hascii) h hplain (isAscii_head? h)

/-- To read a table of numerals is to read its rows. -/
theorem read_eq_edgesOf (hd : Meaningless d) (hascii : IsAscii d)
    (h : Delimited.Tabulates d (header :: rows) text) (hrows : List.Forall₂ Spells edges rows)
    (label : Option String) (hlabel : ∀ name ∈ label, name = "type") :
    read (numeralLayout label d) (bytesOf text) =
      edgesOf (numeralLayout label d) (numeralColumns label) (rows.map (·.map bytesOf)) := by
  have hrecords := records_of_numerals hd hascii h hrows
  have hcolumns := find_header label hlabel d.toNat.toUInt8
  rw [read, numeralLayout, hrecords, List.map_cons, List.headD_cons, textOf_header]
  simp only [bind, Except.bind, hcolumns, List.tail_cons]

/-- The text is a table of numerals for the edges, with the character between them. -/
def IsTable (d : Char) (edges : List Edge) (text : List Char) : Prop :=
  ∃ rows, List.Forall₂ Spells edges rows ∧ Delimited.Tabulates d (header :: rows) text

/-- **A table of numerals is read as its edges**, if these can be stored. -/
theorem read_typed (hd : Meaningless d) (hascii : IsAscii d) (h : IsTable d edges text)
    (hcodes : ∀ e ∈ edges, 0 ≤ e.label.code.toInt) :
    read (numeralLayout (some "type") d) (bytesOf text) = .ok edges := by
  obtain ⟨rows, hrows, h⟩ := h
  rw [read_eq_edgesOf hd hascii h hrows (some "type") (by simp), edgesOf_eq_ok_iff,
    List.forall₂_map_right_iff]
  have hboth := (List.forall₂_and_left _ _).mpr ⟨hcodes, hrows⟩
  exact hboth.imp fun e row h => h.2.reads_typed h.1

/-- Without its types any table of numerals is read, as plain edges. -/
theorem read_untyped (hd : Meaningless d) (hascii : IsAscii d) (h : IsTable d edges text) :
    read (numeralLayout none d) (bytesOf text) =
      .ok (edges.map fun e => { e with label := .plain }) := by
  obtain ⟨rows, hrows, h⟩ := h
  rw [read_eq_edgesOf hd hascii h hrows none nofun, edgesOf_eq_ok_iff,
    List.forall₂_map_right_iff, List.forall₂_map_left_iff]
  exact hrows.imp fun e row h => h.reads_untyped

/-- The first row that is refused decides. -/
theorem edgesOf_error {columns : Columns} {before after : List (List Delimited.Field)}
    {record : List Delimited.Field} {err : TableError}
    (hbefore : ∀ r ∈ before, ∃ e, Reads layout columns e r) (hrow : textOf record = .ok row)
    (herr : edgeOf layout columns (before.length + 1) row = .error err) :
    edgesOf layout columns (before ++ record :: after) = .error err := by
  rw [edgesOf, List.zipIdx_append, List.zipIdx_cons]
  refine mapM_error_of_first ?_ ?_
  · rintro ⟨r, n⟩ hr
    obtain ⟨e, row, hrow, hholds⟩ := hbefore r (List.fst_mem_of_mem_zipIdx hr)
    exact ⟨e, bind_eq_ok_iff.mpr ⟨row, hrow, edgeOf_eq_ok_iff.mpr hholds⟩⟩
  · rw [Nat.add_comm] at herr
    exact bind_eq_error_iff.mpr (.inr ⟨row, hrow, herr⟩)

/-! ## Written tables -/

/-- The numerals that are written for an edge. -/
def rowOf (e : Edge) : List (List Char) :=
  [(toString e.source.toNat).toList, (toString e.target.toNat).toList,
    (toString e.label.code.toInt).toList]

theorem spells_rowOf (e : Edge) : Spells e (rowOf e) :=
  .numerals (Numeral.unsigned_toString _) (Numeral.unsigned_toString _) (Numeral.signed_toString _)

theorem forall₂_rowOf (edges : List Edge) : List.Forall₂ Spells edges (edges.map rowOf) := by
  rw [List.forall₂_map_right_iff, List.forall₂_same]
  exact fun e _ => spells_rowOf e

theorem toList_line (e : Edge) : (line e).toList = [','].intercalate (rowOf e) ++ ['\n'] := by
  simp [line, rowOf, List.intercalate_cons_cons]

theorem toList_write (edges : List Edge) : (write edges).toList =
    [','].intercalate header ++ (['\n'] ++ edges.flatMap fun e => (line e).toList) := by
  have hlines : ∀ text : String, (edges.foldl (fun text e => text ++ line e) text).toList =
      text.toList ++ edges.flatMap fun e => (line e).toList := by
    induction edges with
    | nil => simp
    | cons e rest ih =>
      intro text
      simp [ih]
  rw [write, hlines]
  rfl

/-- **A written table has a line for each edge**, under its header. -/
theorem tabulates_write (edges : List Edge) :
    Delimited.Tabulates ',' (header :: edges.map rowOf) (write edges).toList := by
  have hstop : Delimited.LineEnd ['\n'] := ⟨List.cons_ne_nil _ _, by simp⟩
  rw [toList_write]
  refine .cons hstop ?_
  induction edges with
  | nil => exact .nil
  | cons e rest ih =>
    rw [List.flatMap_cons, toList_line, List.append_assoc]
    exact .cons hstop ih

theorem meaningless_comma : Meaningless ',' := ⟨by decide, by decide⟩

theorem numeralLayout_comma (label : Option String) :
    numeralLayout label ',' = { labelColumn := label } := rfl

/-- **A written table with an edge that cannot be stored is refused with its types**, in the row
of the first such edge. -/
theorem read_write_negative {before after : List Edge}
    (hbefore : ∀ e' ∈ before, 0 ≤ e'.label.code.toInt) (hcode : e.label.code.toInt < 0) :
    read { labelColumn := some "type" } (bytesOf (write (before ++ e :: after)).toList) =
      .error (.label (before.length + 1) (toString e.label.code.toInt)) := by
  have hedges := forall₂_rowOf (before ++ e :: after)
  rw [← numeralLayout_comma, read_eq_edgesOf meaningless_comma (by decide) (tabulates_write _)
    hedges (some "type") (by simp), List.map_append, List.map_append, List.map_cons, List.map_cons]
  refine edgesOf_error ?_ (spells_rowOf e).textOf ?_
  · intro record hrecord
    rw [List.map_map] at hrecord
    obtain ⟨e', he', rfl⟩ := List.mem_map.mp hrecord
    exact ⟨e', (spells_rowOf e').reads_typed (hbefore e' he')⟩
  · rw [List.length_map, List.length_map, rowOf, (spells_rowOf e).edgeOf_negative hcode,
      String.ofList_toList]

/-- **Edge tables survive being written and read**: with its types a table of edges that can be
stored is read as the same edges in the same order, and without its types any table is read as
the same edges, all plain. With an edge that cannot be stored the table is refused with its
types, and the wording names the row of the first such edge, counted from one. -/
theorem read_write_exact (edges : List Edge) :
    ((∀ e ∈ edges, 0 ≤ e.label.code.toInt) →
      read { labelColumn := some "type" } (write edges).toUTF8.data.toList = .ok edges) ∧
    read {} (write edges).toUTF8.data.toList =
      .ok (edges.map fun e => { e with label := .plain }) ∧
    ((∃ e ∈ edges, e.label.code.toInt < 0) → ∃ before e after, edges = before ++ e :: after ∧
      (∀ e' ∈ before, 0 ≤ e'.label.code.toInt) ∧ e.label.code.toInt < 0 ∧
        ∃ cause, read { labelColumn := some "type" } (write edges).toUTF8.data.toList =
            .error cause ∧
          cause.message = "row " ++ toString (before.length + 1) ++ ": '" ++
            toString e.label.code.toInt ++ "' is not a non-negative edge type") := by
  have htable : IsTable ',' edges (write edges).toList :=
    ⟨_, forall₂_rowOf edges, tabulates_write edges⟩
  have htyped := read_typed meaningless_comma (by decide) htable
  have huntyped := read_untyped meaningless_comma (by decide) htable
  rw [numeralLayout_comma] at htyped huntyped
  rw [toList_data_toUTF8]
  refine ⟨htyped, huntyped, ?_⟩
  rintro ⟨e, he, hcode⟩
  -- the first edge that cannot be stored
  obtain ⟨first, hfirst⟩ : ∃ first, edges.find? (fun e => e.label.code.toInt < 0) = some first :=
    Option.isSome_iff_exists.mp (List.find?_isSome.mpr ⟨e, he, decide_eq_true hcode⟩)
  obtain ⟨hcode, before, after, rfl, hbefore⟩ := List.find?_eq_some_iff_append.mp hfirst
  simp only [decide_eq_true_eq, Bool.not_eq_true', decide_eq_false_iff_not, Int.not_lt]
    at hcode hbefore
  exact ⟨before, first, after, rfl, hbefore, hcode, _, read_write_negative hbefore hcode, rfl⟩

/-- Numbers at their limits, a loop and a repeated edge, and two labels that cannot be stored. -/
theorem read_write_exact_limits :
    read { labelColumn := some "type" }
        (write [⟨4294967295, 0, ⟨32767⟩⟩, ⟨2, 2, .plain⟩, ⟨2, 2, .plain⟩]).toUTF8.data.toList =
      .ok [⟨4294967295, 0, ⟨32767⟩⟩, ⟨2, 2, .plain⟩, ⟨2, 2, .plain⟩] ∧
    ∃ cause, read { labelColumn := some "type" }
        (write [⟨0, 1, .plain⟩, ⟨1, 2, ⟨-32768⟩⟩, ⟨0, 0, .any⟩]).toUTF8.data.toList =
      .error cause := by
  obtain ⟨hread, -, -⟩ :=
    read_write_exact [⟨4294967295, 0, ⟨32767⟩⟩, ⟨2, 2, .plain⟩, ⟨2, 2, .plain⟩]
  obtain ⟨-, -, hrefused⟩ := read_write_exact [⟨0, 1, .plain⟩, ⟨1, 2, ⟨-32768⟩⟩, ⟨0, 0, .any⟩]
  obtain ⟨_, _, _, -, -, -, cause, herror, -⟩ := hrefused ⟨_, .tail _ (.head _), by decide⟩
  refine ⟨hread ?_, cause, herror⟩
  simp only [List.forall_mem_cons]
  exact ⟨by decide, by decide, by decide, List.forall_mem_nil _⟩

end EdgeTable
end DeltaMatch
