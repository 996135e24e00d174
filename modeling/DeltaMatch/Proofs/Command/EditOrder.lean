import DeltaMatch.Proofs.Command.DeltaCommit
import DeltaMatch.Proofs.Command.Options

/-!
# The order of edits

Additions and deletions are told apart, each kind with its positions on the command line, and
are put together again by these positions. Whatever the positions are, as long as they ascend
along the command line, the edits come out as they were given, and a delta is that of making them
one after the other.
-/

namespace DeltaMatch
namespace Command

variable {line : List (Nat × Edit)} {given : List Given} {edits : List Edit} {g g' : Graph}

/-! ## Putting edits together -/

/-- What is told of the edits of one kind that stand on a command line. -/
def occurrences (kind : EditKind) (line : List (Nat × Edit)) : Occurrences :=
  let own := line.filter (·.2.kind == kind)
  ⟨own.map (·.2.spec), own.map (·.1)⟩

theorem placedEdits_occurrences (kind : EditKind) (line : List (Nat × Edit)) (start : Nat) :
    placedEdits kind (occurrences kind line) start = line.filter (·.2.kind == kind) := by
  refine List.ext_getElem (by simp [placedEdits, occurrences]) fun i hi hi' => ?_
  have hkind : ((line.filter (·.2.kind == kind))[i]).2.kind = kind := by
    simpa using (List.mem_filter.mp (List.getElem_mem hi')).2
  simp only [placedEdits, occurrences, List.getElem_mapIdx, List.getElem_map]
  rw [List.getD_eq_getElem _ _ (by simpa using hi'), List.getElem_map]
  refine Prod.ext rfl ?_
  rw [Edit.mk.injEq]
  exact ⟨hkind.symm, rfl⟩

/-- A list in strict order is what its members are sorted to. -/
theorem mergeSort_of_ascending {placed : List (Nat × Edit)} (h : line.Pairwise (·.1 < ·.1))
    (hperm : placed.Perm line) : placed.mergeSort (fun a b => a.1 ≤ b.1) = line := by
  have hsorted : (placed.mergeSort fun a b => a.1 ≤ b.1).Pairwise fun a b => a.1 ≤ b.1 := by
    have hle := @List.pairwise_mergeSort _ (fun a b : Nat × Edit => decide (a.1 ≤ b.1))
      (fun _ _ _ hab hbc => by simp only [decide_eq_true_eq] at *; omega)
      (fun _ _ => by simp only [Bool.or_eq_true, decide_eq_true_eq]; omega) placed
    exact hle.imp fun hab => of_decide_eq_true hab
  have hsame := (List.mergeSort_perm placed fun a b => a.1 ≤ b.1).trans hperm
  have hdistinct : (line.map (·.1)).Nodup := by
    rw [List.nodup_iff_pairwise_ne, List.pairwise_map]
    exact h.imp Nat.ne_of_lt
  refine hsame.eq_of_pairwise (fun a b ha hb hab hba => ?_) hsorted (h.imp Nat.le_of_lt)
  exact List.inj_on_of_nodup_map hdistinct (hsame.mem_iff.mp ha) hb (Nat.le_antisymm hab hba)

/-- **Edits are put together in their order**, whatever their ascending positions are. -/
theorem orderedEdits_occurrences (h : line.Pairwise (·.1 < ·.1)) :
    orderedEdits (occurrences .add line) (occurrences .delete line) = line.map (·.2) := by
  have hkinds : line.filter (·.2.kind == .delete) = line.filter (!·.2.kind == .add) := by
    refine List.filter_congr fun e _ => ?_
    cases e.2.kind <;> rfl
  have hperm : (line.filter (·.2.kind == .add) ++ line.filter (·.2.kind == .delete)).Perm line := by
    rw [hkinds]
    exact List.filter_append_perm _ line
  rw [orderedEdits, placedEdits_occurrences, placedEdits_occurrences,
    mergeSort_of_ascending h hperm]

/-! ## Command lines -/

/-- The edit that an option stands for. -/
def editOf? (g : Given) : Option Edit :=
  if g.name = "add" then some ⟨.add, g.value⟩
  else if g.name = "delete" then some ⟨.delete, g.value⟩
  else none

/-- The edits in the order in which they are given. -/
def editsOf (given : List Given) : List Edit := given.filterMap editOf?

/-- The edits with the positions of their options. -/
def lineOf (given : List Given) : List (Nat × Edit) :=
  given.zipIdx.filterMap fun x => (editOf? x.1).map (x.2, ·)

theorem map_snd_lineOf (given : List Given) : (lineOf given).map (·.2) = editsOf given := by
  have hfst : given = given.zipIdx.map (·.1) := by rw [List.zipIdx_map_fst]
  rw [editsOf, lineOf, List.map_filterMap]
  conv => rhs; rw [hfst, List.filterMap_map]
  refine List.filterMap_congr fun x _ => ?_
  simp [Option.map_map, Function.comp_def]

theorem ascending_lineOf (given : List Given) : (lineOf given).Pairwise (·.1 < ·.1) := by
  have hpositions : given.zipIdx.Pairwise fun a b => a.2 < b.2 := by
    rw [← List.pairwise_map (f := Prod.snd) (R := (· < ·)), List.zipIdx_map_snd]
    exact List.pairwise_lt_range'
  refine List.Pairwise.filterMap _ (fun a b hab x hx y hy => ?_) hpositions
  obtain ⟨-, -, rfl⟩ := Option.map_eq_some_iff.mp hx
  obtain ⟨-, -, rfl⟩ := Option.map_eq_some_iff.mp hy
  exact hab

/-- The option that makes edits of a kind. -/
def EditKind.option : EditKind → String
  | .add => "add"
  | .delete => "delete"

theorem filter_editOf? (kind : EditKind) (g : Given) : (editOf? g).filter (·.kind == kind) =
    if g.name = kind.option then some ⟨kind, g.value⟩ else none := by
  obtain ⟨name, value⟩ := g
  by_cases hadd : name = "add"
  · subst hadd
    cases kind <;> rfl
  by_cases hdelete : name = "delete"
  · subst hdelete
    cases kind <;> rfl
  · cases kind <;> simp [editOf?, EditKind.option, hadd, hdelete]

theorem filter_lineOf (kind : EditKind) (given : List Given) :
    (lineOf given).filter (·.2.kind == kind) =
      (given.zipIdx.filter (·.1.name == kind.option)).map fun x => (x.2, ⟨kind, x.1.value⟩) := by
  rw [lineOf, List.filter_filterMap, ← List.filterMap_eq_map, ← List.filterMap_eq_filter,
    List.filterMap_filterMap]
  refine List.filterMap_congr fun x _ => ?_
  have hfilter : ((editOf? x.1).map (x.2, ·)).filter (·.2.kind == kind) =
      ((editOf? x.1).filter (·.kind == kind)).map (x.2, ·) := by
    rw [Option.filter_map]
    rfl
  rw [hfilter, filter_editOf?]
  by_cases hname : x.1.name = kind.option
  · simp [Option.guard, hname]
  · simp [Option.guard, hname]

/-- What is told of an option is told of its kind of edits. -/
theorem occurrencesOf_option (given : List Given) (kind : EditKind) :
    occurrencesOf given kind.option = occurrences kind (lineOf given) := by
  have hvalues : given.filter (·.name == kind.option) =
      (given.zipIdx.filter (·.1.name == kind.option)).map (·.1) := by
    conv => lhs; rw [← List.zipIdx_map_fst 0 given, List.filter_map]
    rfl
  rw [occurrences, filter_lineOf, occurrencesOf, Given.valuesOf, Given.positionsOf, hvalues]
  simp only [List.map_map, Function.comp_def]

/-- **The edits of a request** are those of its options in their order. -/
theorem orderedEdits_occurrencesOf (given : List Given) :
    orderedEdits (occurrencesOf given "add") (occurrencesOf given "delete") = editsOf given := by
  have hadd : occurrencesOf given "add" = _ := occurrencesOf_option given .add
  have hdelete : occurrencesOf given "delete" = _ := occurrencesOf_option given .delete
  rw [hadd, hdelete, orderedEdits_occurrences (ascending_lineOf given), map_snd_lineOf]

theorem wellNamed_deltaOptions : WellNamed deltaOptions := ⟨by decide, by decide⟩

/-- **A command line asks for a delta** exactly when it spells the options of one. -/
theorem parseArgs_delta_iff {before : Option String} {args : List String} {format : OutputFormat}
    {pattern : PatternRequest} {edits : List Edit} {commit : Bool} :
    parseArgs before ("delta" :: args) = .run format (.delta pattern edits commit) ↔
      ∃ given, SpellsOut deltaOptions given args ∧ Unrepeated deltaOptions given ∧
        Complete deltaOptions given ∧ pattern = patternOf given ∧ edits = editsOf given ∧
          commit = Given.has given "commit" ∧
            format = (((Given.valueOf? given "format").or before).bind OutputFormat.ofName?).getD
              .text := by
  have hparse : parseArgs before ("delta" :: args) =
      commandLine before (deltaOptions, deltaOf) args := rfl
  rw [hparse, commandLine]
  constructor
  · intro hrun
    cases hread : readOptions deltaOptions args with
    | none =>
      rw [hread] at hrun
      cases hrun
    | some given =>
      rw [hread] at hrun
      obtain ⟨hspells, hunrepeated, hcomplete⟩ :=
        (readOptions_eq_some_iff wellNamed_deltaOptions).mp hread
      simp only [deltaOf, orderedEdits_occurrencesOf, Invocation.run.injEq, Request.delta.injEq]
        at hrun
      obtain ⟨rfl, rfl, rfl, rfl⟩ := hrun
      exact ⟨given, hspells, hunrepeated, hcomplete, rfl, rfl, rfl, rfl⟩
  · rintro ⟨given, hspells, hunrepeated, hcomplete, rfl, rfl, rfl, rfl⟩
    rw [(readOptions_eq_some_iff wellNamed_deltaOptions).mpr ⟨hspells, hunrepeated, hcomplete⟩]
    simp only [deltaOf, orderedEdits_occurrencesOf]

/-! ## Making edits -/

/-- One graph becomes another when the edits are made one after the other. -/
inductive Makes : Graph → List Edit → Graph → Prop
  | nil {g : Graph} : Makes g [] g
  | add {g next last : Graph} {spec : String} {edge : Edge} {new : Bool} {rest : List Edit} :
      Edge.ofSpec spec = .ok edge → g.add edge = .ok (next, new) → Makes next rest last →
        Makes g (⟨.add, spec⟩ :: rest) last
  | delete {g next last : Graph} {spec : String} {edge : Edge} {there : Bool}
      {rest : List Edit} : Edge.ofSpec spec = .ok edge → g.delete edge = .ok (next, there) →
        Makes next rest last → Makes g (⟨.delete, spec⟩ :: rest) last

/-- Edits are made as they are applied by a command. -/
theorem makes_iff : Makes g edits g' ↔ edits.foldlM applyEdit g = .ok g' := by
  constructor
  · intro h
    induction h with
    | nil => rfl
    | add hedge hadd _ ih =>
      refine bind_eq_ok_iff.mpr ⟨_, ?_, ih⟩
      simp only [applyEdit, hedge, hadd]
    | delete hedge hdelete _ ih =>
      refine bind_eq_ok_iff.mpr ⟨_, ?_, ih⟩
      simp only [applyEdit, hedge, hdelete]
  · intro h
    induction edits generalizing g with
    | nil =>
      cases h
      exact .nil
    | cons e rest ih =>
      obtain ⟨next, hnext, hrest⟩ := bind_eq_ok_iff.mp (List.foldlM_cons.symm.trans h)
      obtain ⟨edge, hedge⟩ := parses_of_applyEdit hnext
      obtain ⟨kind, spec⟩ := e
      simp only at hedge
      simp only [applyEdit, hedge] at hnext
      cases kind with
      | add =>
        cases hadd : g.add edge with
        | error cause => simp [hadd] at hnext
        | ok result =>
          simp only [hadd, Except.ok.injEq] at hnext
          exact .add hedge hadd (hnext ▸ ih hrest)
      | delete =>
        cases hdelete : g.delete edge with
        | error cause => simp [hdelete] at hnext
        | ok result =>
          simp only [hdelete, Except.ok.injEq] at hnext
          exact .delete hedge hdelete (hnext ▸ ih hrest)

section Aftermath

variable {d : Directory} {pattern : PatternRequest} {p : Pattern}
  (hopens : d.Opens pattern.snapshot g) (hspecs : Pattern.ofSpecs pattern.specs = .ok p)
  (hmakes : Makes g edits g')
include hopens hspecs hmakes

/-- **A delta is computed on the graph that the edits make**, and that graph is kept. -/
theorem exists_aftermath_of_makes (hn : g'.hasLogged = true → pattern.batchSize ≤ batchLimit)
    (format : OutputFormat) (commit : Bool) :
    ∃ c d', p.collectDelta g' pattern.batchSize = .ok c ∧ Kept commit d pattern.snapshot g' d' ∧
      (Request.delta pattern edits commit).aftermath format d =
        ⟨d', changesText format p c, none⟩ := by
  have hedits := makes_iff.mp hmakes
  have hg' : g'.Reachable := reachable_of_edits (.origin hopens.origin) hedits
  obtain ⟨hp, hvalid⟩ := Pattern.of_ofSpecs hspecs
  obtain ⟨c, -, hcollect⟩ := Pattern.exists_collectDelta hp hvalid hg'
  have hcollect := hcollect pattern.batchSize fun hlogged => ⟨hp, hn hlogged⟩
  obtain ⟨d', hkept⟩ : ∃ d', Kept commit d pattern.snapshot g' d' := by
    cases commit with
    | false => exact ⟨d, rfl⟩
    | true => exact hopens.exists_write? _
  exact ⟨c, d', hcollect, hkept, aftermath_delta hopens hspecs hedits hcollect hkept format⟩

theorem aftermath_of_makes_of_overflow (hlogged : g'.hasLogged = true)
    (hn : batchLimit < pattern.batchSize) (format : OutputFormat) (commit : Bool) :
    (Request.delta pattern edits commit).aftermath format d =
      ⟨d, "", some (.graph .batchTooLarge)⟩ :=
  (aftermath_of_overflow hopens hspecs (makes_iff.mp hmakes) hn format).2.1 hlogged commit

end Aftermath

/-- **Edits apply in command-line order.** Whatever ascending positions a command line has told
for its additions and its deletions, they are put together as they stood there, each of them once
and with its kind. So a command line asks for a delta with the edits of the options that it spells,
in their order, and what it prints and keeps is that of the graph that comes about when these edits
are made one after the other. So is what makes it panic. -/
theorem edits_in_order :
    (∀ line : List (Nat × Edit), line.Pairwise (·.1 < ·.1) →
      orderedEdits (occurrences .add line) (occurrences .delete line) = line.map (·.2)) ∧
    (∀ before args format pattern edits commit,
      parseArgs before ("delta" :: args) = .run format (.delta pattern edits commit) ↔
        ∃ given, SpellsOut deltaOptions given args ∧ Unrepeated deltaOptions given ∧
          Complete deltaOptions given ∧ pattern = patternOf given ∧ edits = editsOf given ∧
            commit = Given.has given "commit" ∧
              format = (((Given.valueOf? given "format").or before).bind
                OutputFormat.ofName?).getD .text) ∧
    (∀ d pattern edits commit format g p, d.Opens pattern.snapshot g →
      Pattern.ofSpecs pattern.specs = .ok p → (∀ e ∈ edits, e.Parses) →
        (∃ g', Makes g edits g') ∧ ∀ g', Makes g edits g' →
          ((g'.hasLogged = true → pattern.batchSize ≤ batchLimit) →
            ∃ c d', p.collectDelta g' pattern.batchSize = .ok c ∧
              Kept commit d pattern.snapshot g' d' ∧
                (Request.delta pattern edits commit).aftermath format d =
                  ⟨d', changesText format p c, none⟩) ∧
          (g'.hasLogged = true → batchLimit < pattern.batchSize →
            (Request.delta pattern edits commit).aftermath format d =
              ⟨d, "", some (.graph .batchTooLarge)⟩)) := by
  refine ⟨fun line h => orderedEdits_occurrences h,
    fun before args format pattern edits commit => parseArgs_delta_iff,
    fun d pattern edits commit format g p hopens hspecs hparses => ⟨?_, fun g' hmakes =>
      ⟨fun hn => exists_aftermath_of_makes hopens hspecs hmakes hn format commit,
        fun hlogged hn =>
          aftermath_of_makes_of_overflow hopens hspecs hmakes hlogged hn format commit⟩⟩⟩
  obtain ⟨ops, -, hfold⟩ := exists_ops_of_parses hparses
  exact ⟨_, makes_iff.mpr (hfold g)⟩

/-- An edge is deleted, added again and deleted once more, with the same text each time. -/
theorem edits_in_order_interleaved :
    let s : Snapshot := ⟨3, [], [⟨0, 1, .plain⟩, ⟨1, 2, .plain⟩]⟩
    let d : Directory := ⟨[("graph.json", s.write.toUTF8)]⟩
    let pattern : PatternRequest := ⟨"graph.json", ["a:b"], defaultBatchSize⟩
    let edits : List Edit := [⟨.delete, "0:1"⟩, ⟨.add, "0:1"⟩, ⟨.add, "2:0"⟩, ⟨.delete, "0:1"⟩]
    let line : List (Nat × Edit) := [6, 7, 11, 12].zip edits
    orderedEdits (occurrences .add line) (occurrences .delete line) = edits ∧
      parseArgs none ["delta", "--snapshot", "graph.json", "--edge", "a:b", "--delete=0:1",
          "--add", "0:1", "--add=2:0", "--delete", "0:1", "--commit"] =
        .run .text (.delta pattern edits true) ∧
      ∃ g p g' c d', d.Opens "graph.json" g ∧ Makes g edits g' ∧
        p.collectDelta g' pattern.batchSize = .ok c ∧ Kept true d "graph.json" g' d' ∧
          (Request.delta pattern edits true).aftermath .text d =
            ⟨d', changesText .text p c, none⟩ := by
  intro s d pattern edits line
  have hrestorable : s.Restorable := by
    refine ⟨by decide, ?_, by decide⟩
    simp only [Graph.Loadable]
    decide
  obtain ⟨g, hopens, -⟩ : ∃ g, d.Opens "graph.json" g ∧ _ :=
    exists_opens_of_restorable rfl (by decide) hrestorable
  have hspecs : Pattern.ofSpecs pattern.specs = .ok ⟨["a", "b"], [⟨0, 1, .any⟩]⟩ := by decide
  have hparses : ∀ e ∈ edits, e.Parses := by
    simp only [edits, List.forall_mem_cons]
    exact ⟨⟨⟨0, 1, .plain⟩, by decide⟩, ⟨⟨0, 1, .plain⟩, by decide⟩,
      ⟨⟨2, 0, .plain⟩, by decide⟩, ⟨⟨0, 1, .plain⟩, by decide⟩, List.forall_mem_nil _⟩
  let given : List Given := [⟨"snapshot", "graph.json"⟩, ⟨"edge", "a:b"⟩, ⟨"delete", "0:1"⟩,
    ⟨"add", "0:1"⟩, ⟨"add", "2:0"⟩, ⟨"delete", "0:1"⟩, ⟨"commit", ""⟩]
  have hspells : SpellsOut deltaOptions given ["--snapshot", "graph.json", "--edge", "a:b",
      "--delete=0:1", "--add", "0:1", "--add=2:0", "--delete", "0:1", "--commit"] := by
    have hmem : ∀ i : Fin 7, deltaOptions.get i ∈ deltaOptions :=
      fun i => List.get_mem deltaOptions i
    exact .option (.separate (hmem 1) rfl rfl rfl) <|
      .option (.separate (hmem 2) rfl rfl rfl) <|
      .option (.attached (hmem 5) rfl rfl) <|
      .option (.separate (hmem 4) rfl rfl rfl) <|
      .option (.attached (hmem 4) rfl rfl) <|
      .option (.separate (hmem 5) rfl rfl rfl) <|
      .option (.switch (hmem 6) rfl) .nil
  have hunrepeated : Unrepeated deltaOptions given := by
    unfold Unrepeated
    decide
  have hcomplete : Complete deltaOptions given := by
    unfold Complete
    decide
  obtain ⟨hordered, hasks, hmakes⟩ := edits_in_order
  obtain ⟨⟨g', hg'⟩, hall⟩ := hmakes d pattern edits true .text g _ hopens hspecs hparses
  obtain ⟨c, d', hcollect, hkept, haftermath⟩ := (hall g' hg').1 fun _ => by decide
  have hparsed := (hasks none _ .text pattern edits true).mpr
    ⟨_, hspells, hunrepeated, hcomplete, rfl, by decide, by decide, by decide⟩
  exact ⟨hordered line (by decide), hparsed, g, _, g', c, d', hopens, hg', hcollect, hkept,
    haftermath⟩

end Command
end DeltaMatch
