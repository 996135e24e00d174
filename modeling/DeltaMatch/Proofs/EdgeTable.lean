import DeltaMatch.EdgeTable
import DeltaMatch.Proofs.EdgeSpec
import DeltaMatch.Proofs.Graph.BulkLoad

/-!
# Loading edge tables

Each row of a table is read on its own, whatever line it stands in. The edges of a table that
can be read can always be stored in just enough slots, so without a bound such a table loads;
and the graph depends on nothing but the set of its edges.
-/

namespace DeltaMatch
namespace EdgeTable

variable {layout : Layout} {columns : Columns} {row : List (List Char)} {name : String}
  {column number : Nat} {e : Edge} {edges edges' : List Edge} {bytes bytes' : List UInt8}

/-! ## Rows -/

theorem vertexOf_eq_ok_iff {v : VertexId} : vertexOf row column name number = .ok v ↔
    ∃ value, valueOf row column name = .ok value ∧ Numeral.word32? value = some v := by
  rw [vertexOf, bind_eq_ok_iff]
  refine exists_congr fun value => and_congr_right fun _ => ?_
  cases Numeral.word32? value with
  | none => exact iff_of_false nofun nofun
  | some v' => exact ⟨fun h => congrArg some (Except.ok.inj h), fun h => congrArg _ (Option.some.inj h)⟩

theorem labelOf_eq_ok_iff {l : Label} : labelOf row column name number = .ok l ↔
    ∃ value, valueOf row column name = .ok value ∧ EdgeSpec.storedLabel? value = some l := by
  rw [labelOf, bind_eq_ok_iff]
  refine exists_congr fun value => and_congr_right fun _ => ?_
  cases EdgeSpec.storedLabel? value with
  | none => exact iff_of_false nofun nofun
  | some l' => exact ⟨fun h => congrArg some (Except.ok.inj h), fun h => congrArg _ (Option.some.inj h)⟩

/-- The label that a row gives its edge: that of the label column, if there is one. -/
def HasLabel (columns : Columns) (row : List (List Char)) (l : Label) : Prop :=
  match columns.label with
  | none => l = .plain
  | some (column, name) =>
    ∃ value, valueOf row column name = .ok value ∧ EdgeSpec.storedLabel? value = some l

theorem HasLabel.isAny {l : Label} (h : HasLabel columns row l) : l.isAny = false := by
  rw [HasLabel] at h
  split at h
  · subst h
    rfl
  · obtain ⟨value, -, hstored⟩ := h
    exact EdgeSpec.isAny_storedLabel? hstored

/-- The row holds the endpoints and the label of the edge in its columns. -/
structure Holds (layout : Layout) (columns : Columns) (e : Edge) (row : List (List Char)) :
    Prop where
  source : ∃ value, valueOf row columns.source layout.sourceColumn = .ok value ∧
    Numeral.word32? value = some e.source
  target : ∃ value, valueOf row columns.target layout.targetColumn = .ok value ∧
    Numeral.word32? value = some e.target
  label : HasLabel columns row e.label

/-- **What a row stands for does not depend on where it stands.** -/
theorem edgeOf_eq_ok_iff : edgeOf layout columns number row = .ok e ↔
    Holds layout columns e row := by
  rw [edgeOf, bind_eq_ok_iff]
  simp only [bind_eq_ok_iff, vertexOf_eq_ok_iff]
  constructor
  · rintro ⟨source, hsource, target, htarget, h⟩
    cases hlabel : columns.label with
    | none =>
      simp only [hlabel] at h
      cases h
      exact ⟨hsource, htarget, by rw [HasLabel, hlabel]⟩
    | some found =>
      simp only [hlabel, bind_eq_ok_iff, labelOf_eq_ok_iff] at h
      obtain ⟨l, hl, heq⟩ := h
      cases heq
      exact ⟨hsource, htarget, by rw [HasLabel, hlabel]; exact hl⟩
  · rintro ⟨hsource, htarget, hl⟩
    refine ⟨e.source, hsource, e.target, htarget, ?_⟩
    rw [HasLabel] at hl
    cases hlabel : columns.label with
    | none =>
      rw [hlabel] at hl
      simp only at hl ⊢
      rw [← hl]
      rfl
    | some found =>
      rw [hlabel] at hl
      simp only [bind_eq_ok_iff, labelOf_eq_ok_iff]
      exact ⟨e.label, hl, rfl⟩

/-- The record is text that stands for the edge. -/
def Reads (layout : Layout) (columns : Columns) (e : Edge) (record : List Delimited.Field) :
    Prop :=
  ∃ row, textOf record = .ok row ∧ Holds layout columns e row

theorem edgesOf_eq_ok_iff {records : List (List Delimited.Field)} :
    edgesOf layout columns records = .ok edges ↔
      List.Forall₂ (Reads layout columns) edges records := by
  have hreads : ∀ (e : Edge) (x : List Delimited.Field × Nat),
      (do edgeOf layout columns x.2 (← textOf x.1)) = .ok e ↔ Reads layout columns e x.1 := by
    intro e x
    rw [bind_eq_ok_iff]
    exact exists_congr fun row => and_congr_right fun _ => edgeOf_eq_ok_iff
  have hmap : List.Forall₂ (Reads layout columns) edges records ↔
      List.Forall₂ (fun e x => Reads layout columns e x.1) edges (records.zipIdx 1) := by
    conv_lhs => rw [← List.zipIdx_map_fst 1 records]
    exact List.forall₂_map_right_iff
  rw [edgesOf, mapM_eq_ok_iff, hmap]
  simp only [hreads]

theorem read_eq_ok_iff : read layout bytes = .ok edges ↔ ∃ header columns,
    textOf ((Delimited.records layout.delimiter bytes).headD []) = .ok header ∧
      Columns.find layout header = .ok columns ∧ List.Forall₂ (Reads layout columns) edges
        (Delimited.records layout.delimiter bytes).tail := by
  rw [read, bind_eq_ok_iff]
  simp only [bind_eq_ok_iff, edgesOf_eq_ok_iff, exists_and_left]

/-- An edge of a table can be stored. -/
theorem isAny_of_read (h : read layout bytes = .ok edges) (he : e ∈ edges) :
    e.label.isAny = false := by
  obtain ⟨header, columns, -, -, hall⟩ := read_eq_ok_iff.mp h
  obtain ⟨record, -, row, -, hholds⟩ := (exists_of_forall₂ hall).1 e he
  exact hholds.label.isAny

/-- The tables have the same header and the same rows, in whatever order and number. -/
structure SameRows (delimiter : UInt8) (bytes bytes' : List UInt8) : Prop where
  header : (Delimited.records delimiter bytes).headD [] =
    (Delimited.records delimiter bytes').headD []
  rows : ∀ record, record ∈ (Delimited.records delimiter bytes).tail ↔
    record ∈ (Delimited.records delimiter bytes').tail

theorem Reads.unique {e' : Edge} {record : List Delimited.Field}
    (h : Reads layout columns e record) (h' : Reads layout columns e' record) : e = e' := by
  obtain ⟨row, hrow, hholds⟩ := h
  obtain ⟨row', hrow', hholds'⟩ := h'
  cases hrow.symm.trans hrow'
  have hedge : edgeOf layout columns 0 row = .ok e := edgeOf_eq_ok_iff.mpr hholds
  rw [edgeOf_eq_ok_iff.mpr hholds'] at hedge
  exact (Except.ok.inj hedge).symm

/-- **A table with the rows of one that is read is read**, and has the same edges. -/
theorem read_of_sameRows (hsame : SameRows layout.delimiter bytes bytes')
    (h : read layout bytes = .ok edges) :
    ∃ edges', read layout bytes' = .ok edges' ∧ ∀ e, e ∈ edges ↔ e ∈ edges' := by
  obtain ⟨header, columns, hheader, hcolumns, hall⟩ := read_eq_ok_iff.mp h
  obtain ⟨hedges, hrecords⟩ := exists_of_forall₂ hall
  obtain ⟨edges', hall'⟩ := exists_forall₂ fun record hrecord =>
    (hrecords record ((hsame.rows record).mpr hrecord)).imp fun _ h => h.2
  refine ⟨edges', read_eq_ok_iff.mpr ⟨header, columns, hsame.header ▸ hheader, hcolumns, hall'⟩,
    fun e => ⟨fun he => ?_, fun he => ?_⟩⟩
  · obtain ⟨record, hrecord, hreads⟩ := hedges e he
    obtain ⟨e', he', hreads'⟩ := (exists_of_forall₂ hall').2 record ((hsame.rows record).mp hrecord)
    rwa [hreads.unique hreads']
  · obtain ⟨record, hrecord, hreads⟩ := (exists_of_forall₂ hall').1 e he
    obtain ⟨e', he', hreads'⟩ := hrecords record ((hsame.rows record).mpr hrecord)
    rwa [hreads.unique hreads']

/-! ## Slots -/

/-- So many slots hold the endpoints of the edges, and the last of them is needed. -/
structure JustEnough (edges : List Edge) (slots : Nat) : Prop where
  source_lt : ∀ e ∈ edges, e.source.toNat < slots
  target_lt : ∀ e ∈ edges, e.target.toNat < slots
  needed : slots ≠ 0 → ∃ e ∈ edges, e.source.toNat + 1 = slots ∨ e.target.toNat + 1 = slots

theorem JustEnough.le {slots slots' : Nat} (h : JustEnough edges slots)
    (h' : JustEnough edges' slots') (hsub : ∀ e ∈ edges, e ∈ edges') : slots ≤ slots' := by
  by_cases hzero : slots = 0
  · omega
  · obtain ⟨e, he, hlast⟩ := h.needed hzero
    have hsource := h'.source_lt e (hsub e he)
    have htarget := h'.target_lt e (hsub e he)
    omega

theorem toNat_highest (e : Edge) : e.highest.toNat = max e.source.toNat e.target.toNat := by
  rw [Edge.highest, UInt32.toNat_max]

theorem foldl_highest (edges : List Edge) (n : Nat) :
    (∀ e ∈ edges, e.highest.toNat < edges.foldl (fun n e => max n (e.highest.toNat + 1)) n) ∧
      n ≤ edges.foldl (fun n e => max n (e.highest.toNat + 1)) n ∧
      (edges.foldl (fun n e => max n (e.highest.toNat + 1)) n ≠ n → ∃ e ∈ edges,
        e.highest.toNat + 1 = edges.foldl (fun n e => max n (e.highest.toNat + 1)) n) := by
  induction edges generalizing n with
  | nil => exact ⟨nofun, Nat.le_refl n, fun h => absurd rfl h⟩
  | cons e rest ih =>
    rw [List.foldl_cons]
    have hfirst : e.highest.toNat + 1 ≤ max n (e.highest.toNat + 1) := Nat.le_max_right _ _
    have hmax : max n (e.highest.toNat + 1) ≠ n →
        e.highest.toNat + 1 = max n (e.highest.toNat + 1) := by omega
    obtain ⟨hbelow, hle, hattained⟩ := ih (max n (e.highest.toNat + 1))
    refine ⟨List.forall_mem_cons.mpr ⟨Nat.le_trans hfirst hle, hbelow⟩,
      Nat.le_trans (Nat.le_max_left _ _) hle, fun hne => ?_⟩
    by_cases hrest : rest.foldl (fun n e => max n (e.highest.toNat + 1))
        (max n (e.highest.toNat + 1)) = max n (e.highest.toNat + 1)
    -- no later edge needs more slots than this one
    · rw [hrest] at hne ⊢
      exact ⟨e, List.mem_cons_self, hmax hne⟩
    · obtain ⟨e', he', heq⟩ := hattained hrest
      exact ⟨e', List.mem_cons_of_mem _ he', heq⟩

theorem justEnough_slotsFor (edges : List Edge) : JustEnough edges (slotsFor edges) := by
  obtain ⟨hbelow, -, hattained⟩ := foldl_highest edges 0
  refine ⟨fun e he => ?_, fun e he => ?_, fun hne => ?_⟩
  · exact Nat.lt_of_le_of_lt (by rw [toNat_highest]; omega) (hbelow e he)
  · exact Nat.lt_of_le_of_lt (by rw [toNat_highest]; omega) (hbelow e he)
  · obtain ⟨e, he, heq⟩ := hattained hne
    rw [toNat_highest] at heq
    exact ⟨e, he, by rw [slotsFor]; omega⟩

theorem slotsFor_congr (hsame : ∀ e, e ∈ edges ↔ e ∈ edges') : slotsFor edges = slotsFor edges' :=
  Nat.le_antisymm
    ((justEnough_slotsFor edges).le (justEnough_slotsFor edges') fun e => (hsame e).mp)
    ((justEnough_slotsFor edges').le (justEnough_slotsFor edges) fun e => (hsame e).mpr)

theorem slotsFor_le (edges : List Edge) : slotsFor edges ≤ UInt32.size := by
  by_cases hzero : slotsFor edges = 0
  · omega
  · obtain ⟨e, -, hlast⟩ := (justEnough_slotsFor edges).needed hzero
    have hsource := e.source.toNat_lt
    have htarget := e.target.toNat_lt
    have hsize : UInt32.size = 2 ^ 32 := rfl
    omega

/-! ## Loads -/

/-- Edges that were read load in just enough slots. -/
theorem exists_load_of_read (h : read layout bytes = .ok edges) :
    ∃ g, Graph.load (slotsFor edges) edges = .ok g := by
  have henough := justEnough_slotsFor edges
  exact Graph.exists_load_iff.mpr ⟨slotsFor_le edges, fun e he =>
    ⟨isAny_of_read h he, henough.source_lt e he, henough.target_lt e he⟩⟩

theorem load_eq_of_read {g : Graph} (hcount : layout.vertexCount = none)
    (h : read layout bytes = .ok edges) (hg : Graph.load (slotsFor edges) edges = .ok g) :
    load layout bytes = .ok (g, ⟨edges.length, g.edgeCount, slotsFor edges⟩) := by
  rw [load, bind_eq_ok_iff]
  refine ⟨edges, h, ?_⟩
  simp only [hcount, Option.getD_none, hg]
  rfl

theorem read_of_load {g : Graph} {summary : Summary} (h : load layout bytes = .ok (g, summary)) :
    ∃ edges, read layout bytes = .ok edges :=
  (bind_eq_ok_iff.mp h).imp fun _ hedges => hedges.1

/-- Tables with the same edges load the same graph. -/
theorem exists_load_congr {layout' : Layout} {g : Graph} (hcount : layout'.vertexCount = none)
    (hsame : ∀ e, e ∈ edges ↔ e ∈ edges') (hg : Graph.load (slotsFor edges) edges = .ok g)
    (h : read layout' bytes' = .ok edges') :
    ∃ summary, load layout' bytes' = .ok (g, summary) := by
  refine ⟨_, load_eq_of_read hcount h ?_⟩
  rw [← slotsFor_congr hsame]
  exact Graph.load_congr hsame hg

end EdgeTable

namespace Graph

open EdgeTable

/-- **Bulk loads are exact.** More slots than there are vertex numbers are refused; otherwise the
first edge that cannot be stored decides, and with no such edge there is a graph that has
nothing pending, so many slots and the listed edges, whatever their order and number. So
a table that can be read loads without a bound, its summary counts its rows and its distinct
edges, and tables with the same rows load the same graph. -/
theorem bulk_load_exact :
    (∀ slots listed, UInt32.size < slots →
      Graph.load slots listed = .error (.tooManyVertices slots) ∧
        (GraphError.tooManyVertices slots).code = "InvalidArgument") ∧
    (∀ slots listed err, slots ≤ UInt32.size →
      (Graph.load slots listed = .error err ↔ FirstFault slots listed err)) ∧
    (∀ slots listed, slots ≤ UInt32.size → (∀ e ∈ listed, Loadable slots e) →
      ∃ g, Graph.load slots listed = .ok g ∧ Loaded slots listed g ∧
        ∀ listed', (∀ e, e ∈ listed ↔ e ∈ listed') → Graph.load slots listed' = .ok g) ∧
    (∀ (layout : Layout) bytes edges, layout.vertexCount = none →
      read layout bytes = .ok edges → ∃ g slots, JustEnough edges slots ∧ Loaded slots edges g ∧
        EdgeTable.load layout bytes = .ok (g,
          ⟨(Delimited.records layout.delimiter bytes).tail.length, edges.toFinset.card, slots⟩) ∧
        ∀ (layout' : Layout) bytes' edges', layout'.vertexCount = none →
          read layout' bytes' = .ok edges' → (∀ e, e ∈ edges ↔ e ∈ edges') →
            ∃ summary, EdgeTable.load layout' bytes' = .ok (g, summary)) ∧
    (∀ (layout : Layout) bytes bytes' g summary, layout.vertexCount = none →
      SameRows layout.delimiter bytes bytes' → EdgeTable.load layout bytes = .ok (g, summary) →
        ∃ summary', EdgeTable.load layout bytes' = .ok (g, summary')) := by
  refine ⟨fun slots listed h => ⟨?_, rfl⟩, fun slots listed err h => load_eq_error_iff h,
    fun slots listed hslots hlisted => ?_, fun layout bytes edges hcount hread => ?_,
    fun layout bytes bytes' g summary hcount hsame hload => ?_⟩
  · rw [Graph.load, stageLoad, if_pos h]
    rfl
  · obtain ⟨g, hg⟩ := exists_load_iff.mpr ⟨hslots, hlisted⟩
    exact ⟨g, hg, Loaded.of_load hg, fun listed' hsame => load_congr hsame hg⟩
  · obtain ⟨g, hg⟩ := exists_load_of_read hread
    obtain ⟨header, columns, -, -, hall⟩ := read_eq_ok_iff.mp hread
    refine ⟨g, slotsFor edges, justEnough_slotsFor edges, Loaded.of_load hg, ?_,
      fun layout' bytes' edges' hcount' hread' hsame => exists_load_congr hcount' hsame hg hread'⟩
    rw [load_eq_of_read hcount hread hg, edgeCount_of_load hg, hall.length_eq]
  · obtain ⟨edges, hread⟩ := read_of_load hload
    obtain ⟨g', hg'⟩ := exists_load_of_read hread
    cases hload.symm.trans (load_eq_of_read hcount hread hg')
    obtain ⟨edges', hread', hedges⟩ := read_of_sameRows hsame hread
    exact exists_load_congr hcount hedges hg' hread'

/-- Three rows, one of them twice. -/
def repeatedRows : List UInt8 := "from,to\n0,1\n2,1\n0,1\n".toList.map fun c => c.toNat.toUInt8

/-- The same rows in another order, without a line feed at the end. -/
def reorderedRows : List UInt8 := "from,to\n2,1\n0,1".toList.map fun c => c.toNat.toUInt8

/-- One slot more than there are numbers, an edge with two faults behind one that can be stored,
a list with a repeated edge, and two tables. -/
theorem bulk_load_exact_repeated :
    Graph.load (UInt32.size + 1) [] = .error (.tooManyVertices (UInt32.size + 1)) ∧
    Graph.load 2 [⟨0, 1, .plain⟩, ⟨1, 2, .any⟩, ⟨7, 0, .plain⟩] =
      .error (.vertexOutOfBounds 2 (some 1)) ∧
    (∃ g, Graph.load 3 [⟨0, 1, .plain⟩, ⟨1, 0, ⟨6⟩⟩, ⟨0, 1, .plain⟩] = .ok g ∧
      Graph.load 3 [⟨1, 0, ⟨6⟩⟩, ⟨0, 1, .plain⟩] = .ok g ∧ g.vertexCount .merged = 3) ∧
    (∃ g slots, EdgeTable.load {} repeatedRows = .ok (g, ⟨3, 2, slots⟩) ∧
      ∃ summary, EdgeTable.load {} reorderedRows = .ok (g, summary)) := by
  obtain ⟨htoo, hfault, hload, htable, hrows⟩ := bulk_load_exact
  have hread : read {} repeatedRows =
      .ok [⟨0, 1, .plain⟩, ⟨2, 1, .plain⟩, ⟨0, 1, .plain⟩] := by rfl
  have hsame : SameRows 44 repeatedRows reorderedRows := by
    have hrecords : Delimited.records 44 repeatedRows =
        [[[102, 114, 111, 109], [116, 111]], [[48], [49]], [[50], [49]], [[48], [49]]] := by rfl
    have hrecords' : Delimited.records 44 reorderedRows =
        [[[102, 114, 111, 109], [116, 111]], [[50], [49]], [[48], [49]]] := by rfl
    refine ⟨by rw [hrecords, hrecords']; rfl, fun record => ?_⟩
    rw [hrecords, hrecords']
    simp only [List.tail_cons, List.mem_cons, List.not_mem_nil, or_false]
    tauto
  refine ⟨(htoo _ _ (Nat.lt_succ_self _)).1, (hfault 2 _ _ (by decide)).mpr ?_, ?_, ?_⟩
  · refine ⟨[⟨0, 1, .plain⟩], ⟨1, 2, .any⟩, [⟨7, 0, .plain⟩], rfl, ?_, ?_⟩
    · simp [Loadable, Label.isAny, Label.plain, Label.any]
    · exact .target (by decide) (by decide) rfl
  · obtain ⟨g, hg, hloaded, hcongr⟩ :=
      hload 3 [⟨0, 1, .plain⟩, ⟨1, 0, ⟨6⟩⟩, ⟨0, 1, .plain⟩] (by decide)
        (by simp [Loadable, Label.isAny, Label.plain, Label.any])
    refine ⟨g, hg, hcongr _ fun e => ?_, hloaded.vertexCount_eq _⟩
    simp only [List.mem_cons, List.not_mem_nil, or_false]
    tauto
  · obtain ⟨g, slots, -, -, htable, -⟩ := htable {} repeatedRows _ rfl hread
    exact ⟨g, slots, htable, hrows {} repeatedRows reorderedRows g _ rfl hsame htable⟩

end Graph
end DeltaMatch
