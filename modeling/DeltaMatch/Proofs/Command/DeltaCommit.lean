import DeltaMatch.Proofs.Command.Matches
import DeltaMatch.Proofs.Command.Printing
import DeltaMatch.Proofs.Command.Reading
import DeltaMatch.Proofs.Pattern.Specifications

/-!
# Deltas and matches on a snapshot file

A delta is computed from the edits and a match from the whole graph, and between the two lies a
file. They agree nevertheless: what a match prints after a delta was committed is what it
printed before, without the deleted rows and with the emerged ones. A delta that is not to be
committed writes nothing, and neither does one that fails to read what it needs. With batches
that cannot be reserved the commands panic before they print anything.
-/

namespace DeltaMatch
namespace Command

variable {d d' : Directory} {path : String} {specs : List String} {edits : List Edit}
  {p : Pattern} {g g' : Graph} {rows : List Tuple} {c : ChangeSet}

/-! ## Matches -/

theorem runIn_withPattern (h : Pattern.ofSpecs specs = .ok p) (next : Pattern → Action)
    (output : String) : (withPattern specs next).runIn d output = (next p).runIn d output := by
  rw [withPattern, h]

/-- **A match on a file that can be opened** prints the matches of its graph. -/
theorem printsMatches_of_opens (hopens : d.Opens path g) (hspecs : Pattern.ofSpecs specs = .ok p)
    (hrows : ∀ n, n ≤ batchLimit →
      sortedMatches p g n = .ok rows ∧ countMatches p g n = .ok rows.length) :
    PrintsMatches d path specs p rows := by
  intro format n hn
  obtain ⟨hlisted, hcounted⟩ := hrows n hn
  constructor
  · rw [Request.aftermath, Request.action, listMatches, runIn_openSnapshot hopens,
      runIn_withPattern hspecs]
    simp only [Bool.false_eq_true, if_false, hlisted]
    cases format <;> simp [matchesText, printJson, Action.runIn]
  · rw [Request.aftermath, Request.action, listMatches, runIn_openSnapshot hopens,
      runIn_withPattern hspecs]
    simp only [if_true, hcounted]
    cases format <;> simp [countText, printJson, Action.runIn]

/-- With batches that cannot be reserved a match prints nothing, not even a count. -/
theorem aftermath_match_of_overflow (hopens : d.Opens path g)
    (hspecs : Pattern.ofSpecs specs = .ok p) {n : Nat} (hn : batchLimit < n)
    (format : OutputFormat) (countOnly : Bool) :
    (Request.listMatches ⟨path, specs, n⟩ countOnly).aftermath format d =
      ⟨d, "", some (.graph .batchTooLarge)⟩ := by
  obtain ⟨hp, hvalid⟩ := Pattern.of_ofSpecs hspecs
  obtain ⟨hlisted, hcounted⟩ := matches_of_overflow hp hvalid (.origin hopens.origin) hn
  rw [Request.aftermath, Request.action, listMatches, runIn_openSnapshot hopens,
    runIn_withPattern hspecs]
  cases countOnly with
  | false => simp only [Bool.false_eq_true, if_false, hlisted, Action.runIn]
  | true => simp only [if_true, hcounted, Action.runIn]

/-! ## Deltas -/

/-- The directory after a delta, which is written when the edits are to be kept. -/
def Kept (commit : Bool) (d : Directory) (path : String) (g : Graph) (d' : Directory) : Prop :=
  if commit then d.write? path g.commit.1.snapshot.write = some d' else d' = d

section Delta

variable {commit : Bool} {n : Nat} (hopens : d.Opens path g)
  (hspecs : Pattern.ofSpecs specs = .ok p) (hedits : edits.foldlM applyEdit g = .ok g')
include hopens hspecs hedits

/-- **A delta on a file that can be opened** prints the changes that its edits make. -/
theorem aftermath_delta (hchanges : p.collectDelta g' n = .ok c)
    (hkept : Kept commit d path g' d') (format : OutputFormat) :
    (Request.delta ⟨path, specs, n⟩ edits commit).aftermath format d =
      ⟨d', changesText format p c, none⟩ := by
  have hfinish : ∀ output, (if commit then .write path g'.commit.1.snapshot.write .done
      else .done : Action).runIn d output = ⟨d', output, none⟩ := by
    intro output
    rw [Kept] at hkept
    cases commit with
    | false =>
      cases hkept
      rfl
    | true =>
      rw [if_pos rfl] at hkept
      rw [if_pos rfl, Action.runIn, hkept]
      rfl
  rw [Request.aftermath, Request.action, delta, runIn_openSnapshot hopens,
    runIn_withPattern hspecs]
  simp only [hedits, hchanges]
  cases format <;> simp [changesText, printJson, Action.runIn, hfinish]

theorem printsChanges_of_opens (hchanges : ∀ n, n ≤ batchLimit → p.collectDelta g' n = .ok c)
    (hkept : Kept commit d path g' d') : PrintsChanges d path specs edits commit p c d' :=
  fun format n hn => aftermath_delta hopens hspecs hedits (hchanges n hn) hkept format

/-- A delta whose changes are not found prints nothing and keeps nothing. -/
theorem aftermath_delta_of_failed {e : GraphError} (hfailed : p.collectDelta g' n = .error e)
    (format : OutputFormat) (commit : Bool) :
    (Request.delta ⟨path, specs, n⟩ edits commit).aftermath format d =
      ⟨d, "", some (.graph e)⟩ := by
  rw [Request.aftermath, Request.action, delta, runIn_openSnapshot hopens,
    runIn_withPattern hspecs]
  simp only [hedits, hfailed, Action.runIn]

end Delta

/-! ## Directories that stay as they are -/

/-- The action writes nothing, whatever it reads. -/
def Action.ReadOnly : Action → Prop
  | .read _ next => ∀ content, (next content).ReadOnly
  | .write .. => False
  | .print _ next => next.ReadOnly
  | .done | .fail _ => True

theorem Action.ReadOnly.directory {a : Action} (h : a.ReadOnly) (output : String) :
    (a.runIn d output).directory = d := by
  induction a generalizing output with
  | read path next ih =>
    rw [runIn]
    split
    · exact ih _ (h _) output
    · rfl
  | write => exact h.elim
  | print text next ih => exact ih h _
  | done | fail => rfl

theorem readOnly_openSnapshot {next : Graph → Action} (h : ∀ g, (next g).ReadOnly) :
    (openSnapshot path next).ReadOnly := by
  simp only [openSnapshot, Action.ReadOnly]
  intro content
  split
  · trivial
  · split
    · trivial
    · exact h _

theorem readOnly_withPattern {next : Pattern → Action} (h : ∀ p, (next p).ReadOnly) :
    (withPattern specs next).ReadOnly := by
  rw [withPattern]
  split
  · trivial
  · trivial
  · exact h _

/-- A delta that is not to be committed writes nothing. -/
theorem readOnly_delta (format : OutputFormat) (r : PatternRequest) (edits : List Edit) :
    (delta format r edits false).ReadOnly := by
  refine readOnly_openSnapshot fun g => readOnly_withPattern fun p => ?_
  split
  · trivial
  · split
    · trivial
    · cases format <;> trivial

/-- A delta that cannot read what it needs fails before it prints or writes. -/
theorem aftermath_of_unreadable (h : (¬ ∃ g, d.Opens path g) ∨
      (¬ ∃ p, Pattern.ofSpecs specs = .ok p) ∨ ∃ e ∈ edits, ¬ e.Parses)
    (format : OutputFormat) (n : Nat) (commit : Bool) : ∃ cause,
      (Request.delta ⟨path, specs, n⟩ edits commit).aftermath format d = ⟨d, "", some cause⟩ := by
  rw [Request.aftermath, Request.action, delta]
  by_cases hopens : ∃ g, d.Opens path g
  · obtain ⟨g, hopens⟩ := hopens
    rw [runIn_openSnapshot hopens]
    cases hspecs : Pattern.ofSpecs specs with
    | error e =>
      simp only [withPattern, hspecs]
      cases e with
      | spec cause => exact ⟨_, rfl⟩
      | plan cause => exact ⟨_, rfl⟩
    | ok p =>
      have hedits : ∃ e ∈ edits, ¬ e.Parses :=
        (h.resolve_left (not_not.mpr ⟨g, hopens⟩)).resolve_left (not_not.mpr ⟨p, hspecs⟩)
      obtain ⟨cause, hcause⟩ := exists_error_of_not_parses hedits g
      exact ⟨cause, by simp only [runIn_withPattern hspecs, hcause, Action.runIn]⟩
  · exact runIn_openSnapshot_of_not_opens hopens _ _

/-! ## Agreement -/

/-- The rows after a delta are those before without the deleted ones and with the emerged ones,
of which the former were among them and the latter were not. -/
structure Accounts (before : List Tuple) (c : ChangeSet) (after : List Tuple) : Prop where
  before_ascending : before.Pairwise (· < ·)
  after_ascending : after.Pairwise (· < ·)
  deleted_mem : ∀ a ∈ c.deleted, a ∈ before
  emerged_not_mem : ∀ a ∈ c.emerged, a ∉ before
  mem_after : ∀ a, a ∈ after ↔ (a ∈ before ∧ a ∉ c.deleted) ∨ a ∈ c.emerged

theorem accounts_of_changes {before after : List Tuple} (hbefore : IsMatchRows p g before)
    (hafter : IsMatchRows p g' after) {staged : Graph} (hchanges : p.SortedChanges staged c)
    (hpermanent : ∀ a, p.Holds staged .permanent a ↔ p.Holds g .merged a)
    (hmerged : ∀ a, p.Holds g' .merged a ↔ p.Holds staged .merged a) :
    Accounts before c after where
  before_ascending := hbefore.ascending
  after_ascending := hafter.ascending
  deleted_mem := fun a ha => by
    rw [hbefore.mem_iff, ← hpermanent]
    exact ((hchanges.mem_deleted a).mp ha).1
  emerged_not_mem := fun a ha => by
    rw [hbefore.mem_iff, ← hpermanent]
    exact ((hchanges.mem_emerged a).mp ha).2
  mem_after := fun a => by
    rw [hafter.mem_iff, hbefore.mem_iff, hmerged, ← hpermanent, hchanges.mem_deleted,
      hchanges.mem_emerged]
    tauto

/-- The rows that are printed by a match, by a delta, whether or not it is committed, and by a
match after the committed one. -/
structure Printout (d d' : Directory) (path : String) (specs : List String) (edits : List Edit)
    (p : Pattern) (before : List Tuple) (c : ChangeSet) (after : List Tuple) : Prop where
  before : PrintsMatches d path specs p before
  tried : PrintsChanges d path specs edits false p c d
  committed : PrintsChanges d path specs edits true p c d'
  after : PrintsMatches d' path specs p after

/-- **A delta that reads what it needs is printed and accounts for itself.** -/
theorem exists_printout (hopens : d.Opens path g) (hspecs : Pattern.ofSpecs specs = .ok p)
    (hparses : ∀ e ∈ edits, e.Parses) : ∃ d' before c after,
      Printout d d' path specs edits p before c after ∧ Accounts before c after := by
  have hg : g.Reachable := .origin hopens.origin
  obtain ⟨hp, hvalid⟩ := Pattern.of_ofSpecs hspecs
  obtain ⟨ops, hops, hedits⟩ := exists_ops_of_parses hparses
  have hsame := (Graph.edit_run (g := g) hops).1
  specialize hedits g
  have hstaged := hg.foldl ops
  generalize ops.foldl Graph.step g = staged at hsame hedits hstaged
  obtain ⟨before, hbefore, hlisted⟩ := exists_matchRows hp hvalid hg
  obtain ⟨c, hc, hcollect⟩ := Pattern.exists_collectDelta hp hvalid hstaged
  have hcollect : ∀ n, n ≤ batchLimit → p.collectDelta staged n = .ok c :=
    fun n hn => hcollect n fun _ => ⟨hp, hn⟩
  obtain ⟨d', hd'⟩ := hopens.exists_write? staged.commit.1.snapshot.write
  obtain ⟨g', hopens', hcommitted⟩ := exists_opens_of_write? (hstaged.step .commit) hd'
  obtain ⟨after, hafter, hlisted'⟩ := exists_matchRows hp hvalid (.origin hopens'.origin)
  -- the delta starts from what the first match saw and ends in what the second one sees
  have hpermanent : ∀ e, staged.Has .permanent e ↔ g.Has .merged e := fun e => by
    rw [Graph.Has, hsame.list_eq, Graph.Has, hopens.origin.idle.list_eq .merged]
  have hmerged : ∀ e, g'.Has .merged e ↔ staged.Has .merged e := fun e => by
    rw [Graph.Has, hopens'.origin.idle.list_eq .merged, ← Graph.Has, hcommitted, Graph.step,
      hstaged.wellFormed.has_commit]
  exact ⟨d', before, c, after,
    ⟨printsMatches_of_opens hopens hspecs hlisted,
      printsChanges_of_opens hopens hspecs hedits hcollect rfl,
      printsChanges_of_opens hopens hspecs hedits hcollect hd',
      printsMatches_of_opens hopens' hspecs hlisted'⟩,
    accounts_of_changes hbefore hafter hc (fun _ => Pattern.holds_congr rfl rfl hpermanent)
      fun _ => Pattern.holds_congr rfl rfl hmerged⟩

/-- With batches that cannot be reserved nothing is printed and the directory stays as it is,
unless the edits leave no edge in the logs: then a delta has nothing to do, and it is carried
out. -/
theorem aftermath_of_overflow (hopens : d.Opens path g) (hspecs : Pattern.ofSpecs specs = .ok p)
    (hedits : edits.foldlM applyEdit g = .ok g') {n : Nat} (hn : batchLimit < n)
    (format : OutputFormat) :
    (∀ countOnly, (Request.listMatches ⟨path, specs, n⟩ countOnly).aftermath format d =
      ⟨d, "", some (.graph .batchTooLarge)⟩) ∧
    (g'.hasLogged = true → ∀ commit,
      (Request.delta ⟨path, specs, n⟩ edits commit).aftermath format d =
        ⟨d, "", some (.graph .batchTooLarge)⟩) ∧
    (g'.hasLogged = false → ∀ commit d', Kept commit d path g' d' →
      (Request.delta ⟨path, specs, n⟩ edits commit).aftermath format d =
        ⟨d', changesText format p {}, none⟩) := by
  obtain ⟨hp, hvalid⟩ := Pattern.of_ofSpecs hspecs
  have hg' : g'.Reachable := reachable_of_edits (.origin hopens.origin) hedits
  refine ⟨aftermath_match_of_overflow hopens hspecs hn format,
    fun hlogged => aftermath_delta_of_failed hopens hspecs hedits
      (Pattern.collectDelta_of_overflow hp hvalid hg' hlogged hn) format,
    fun hlogged commit d' hkept => aftermath_delta hopens hspecs hedits
      (Pattern.collectDelta_of_unlogged hvalid hlogged n) hkept format⟩

/-- **Deltas and matches agree.** Once a snapshot, a pattern and edits are read, the matches
before and after a delta and the delta all print rows, and whatever rows these are, the later ones
are the earlier ones without the deleted and with the emerged. A delta that is not to be committed
leaves the directory as it is, and so does one that fails to read what it needs. With batches that
cannot be reserved the commands panic instead, and the directory stays as it is; only a delta
without an edge in the logs does not notice. -/
theorem delta_agrees_with_match (d : Directory) (path : String) (specs : List String)
    (edits : List Edit) :
    (∀ g p, d.Opens path g → Pattern.ofSpecs specs = .ok p → (∀ e ∈ edits, e.Parses) →
      ∃ d', (∃ before c after, Printout d d' path specs edits p before c after) ∧
        ∀ before c after, Printout d d' path specs edits p before c after →
          Accounts before c after) ∧
    (∀ format n, ((Request.delta ⟨path, specs, n⟩ edits false).aftermath format d).directory = d) ∧
    ((¬ ∃ g, d.Opens path g) ∨ (¬ ∃ p, Pattern.ofSpecs specs = .ok p) ∨
        (∃ e ∈ edits, ¬ e.Parses) →
      ∀ format n commit, ∃ cause, (Request.delta ⟨path, specs, n⟩ edits commit).aftermath format d =
        ⟨d, "", some cause⟩) ∧
    (∀ g p g', d.Opens path g → Pattern.ofSpecs specs = .ok p →
      edits.foldlM applyEdit g = .ok g' → ∀ n, batchLimit < n → ∀ format,
        (∀ countOnly, (Request.listMatches ⟨path, specs, n⟩ countOnly).aftermath format d =
          ⟨d, "", some (.graph .batchTooLarge)⟩) ∧
        (g'.hasLogged = true → ∀ commit,
          (Request.delta ⟨path, specs, n⟩ edits commit).aftermath format d =
            ⟨d, "", some (.graph .batchTooLarge)⟩) ∧
        (g'.hasLogged = false → ∀ commit d', Kept commit d path g' d' →
          (Request.delta ⟨path, specs, n⟩ edits commit).aftermath format d =
            ⟨d', changesText format p {}, none⟩)) := by
  refine ⟨fun g p hopens hspecs hparses => ?_, fun format n => ?_, aftermath_of_unreadable,
    fun g p g' hopens hspecs hedits n hn format =>
      aftermath_of_overflow hopens hspecs hedits hn format⟩
  · obtain ⟨d', before, c, after, hprinted, haccounts⟩ := exists_printout hopens hspecs hparses
    refine ⟨d', ⟨before, c, after, hprinted⟩, fun before' c' after' hprinted' => ?_⟩
    rw [hprinted'.before.unique hprinted.before, hprinted'.tried.unique hprinted.tried,
      hprinted'.after.unique hprinted.after]
    exact haccounts
  · exact (readOnly_delta format _ edits).directory ""

/-- A path of three vertices, of which one edge is turned round, while another one comes from a
new vertex. A single vertex is no edit. -/
theorem delta_agrees_with_match_turned :
    let s : Snapshot := ⟨3, [], [⟨0, 1, .plain⟩, ⟨1, 2, .plain⟩]⟩
    let d : Directory := ⟨[("graph.json", s.write.toUTF8)]⟩
    let specs := ["a:b", "b:c"]
    let edits : List Edit := [⟨.delete, "0:1"⟩, ⟨.add, "1:0"⟩, ⟨.add, "7:1:3"⟩]
    (∃ p d', (∃ before c after, Printout d d' "graph.json" specs edits p before c after) ∧
        ∀ before c after, Printout d d' "graph.json" specs edits p before c after →
          Accounts before c after) ∧
      ∃ cause, (Request.delta ⟨"graph.json", specs, 4⟩ [⟨.add, "0"⟩] true).aftermath .text d =
        ⟨d, "", some cause⟩ := by
  intro s d specs edits
  have hrestorable : s.Restorable := by
    refine ⟨by decide, ?_, by decide⟩
    simp only [Graph.Loadable]
    decide
  obtain ⟨g, hopens, -⟩ : ∃ g, d.Opens "graph.json" g ∧ _ :=
    exists_opens_of_restorable rfl (by decide) hrestorable
  have hspecs : Pattern.ofSpecs specs =
      .ok ⟨["a", "b", "c"], [⟨0, 1, .any⟩, ⟨1, 2, .any⟩]⟩ := by decide
  have hparses : ∀ e ∈ edits, e.Parses := by
    simp only [edits, List.forall_mem_cons]
    exact ⟨⟨⟨0, 1, .plain⟩, by decide⟩, ⟨⟨1, 0, .plain⟩, by decide⟩,
      ⟨⟨7, 1, ⟨3⟩⟩, by decide⟩, List.forall_mem_nil _⟩
  have hunread : ¬ Edit.Parses ⟨.add, "0"⟩ := by
    rintro ⟨edge, hedge⟩
    have herror : Edge.ofSpec "0" = .error (.shape "0") := by decide
    cases hedge.symm.trans herror
  obtain ⟨hagrees, -, -⟩ := delta_agrees_with_match d "graph.json" specs edits
  obtain ⟨-, -, hunchanged, -⟩ := delta_agrees_with_match d "graph.json" specs [⟨.add, "0"⟩]
  exact ⟨⟨_, hagrees g _ hopens hspecs hparses⟩,
    hunchanged (.inr (.inr ⟨_, List.mem_singleton_self _, hunread⟩)) .text 4 true⟩

/-- The only match is there to be counted, but with the largest batch size that the option takes
not even a number is printed. -/
theorem count_ends_in_panic :
    let s : Snapshot := ⟨2, [], [⟨0, 1, .plain⟩]⟩
    let d : Directory := ⟨[("graph.json", s.write.toUTF8)]⟩
    (∃ g p, d.Opens "graph.json" g ∧ Pattern.ofSpecs ["a:b"] = .ok p ∧
        IsMatchRows p g [[0, 1]]) ∧
      runIn d ["match", "--snapshot", "graph.json", "--edge", "a:b", "--count", "--batch-size",
          "18446744073709551615"] = (d, "", .failure (.graph .batchTooLarge)) ∧
      (Ending.failure (.graph .batchTooLarge)).status = 101 := by
  intro s d
  have hrestorable : s.Restorable := by
    refine ⟨by decide, ?_, by decide⟩
    simp only [Graph.Loadable]
    decide
  obtain ⟨g, hopens, hdescribes⟩ : ∃ g, d.Opens "graph.json" g ∧ _ :=
    exists_opens_of_restorable rfl (by decide) hrestorable
  have hspecs : Pattern.ofSpecs ["a:b"] = .ok .arrow := by decide
  have hhas : ∀ u v label, g.Has .merged ⟨u, v, label⟩ ↔ (⟨u, v, label⟩ : Edge) ∈ s.edges :=
    fun u v label => hdescribes.list .merged .forward u ⟨v, label⟩
  refine ⟨⟨g, .arrow, hopens, hspecs, List.pairwise_singleton _ _, fun a => ?_⟩, ?_, rfl⟩
  · rw [Pattern.arrow_holds_iff rfl, List.mem_singleton]
    constructor
    · rintro rfl
      exact ⟨0, 1, rfl, .plain, rfl, (hhas _ _ _).mpr (List.mem_singleton_self _)⟩
    · rintro ⟨u, v, rfl, label, -, hedge⟩
      cases List.mem_singleton.mp ((hhas _ _ _).mp hedge)
      rfl
  · have hargs : Invocation.ofArgs ["match", "--snapshot", "graph.json", "--edge", "a:b", "--count",
        "--batch-size", "18446744073709551615"] =
        .run .text (.listMatches ⟨"graph.json", ["a:b"], 18446744073709551615⟩ true) := rfl
    have haftermath := aftermath_match_of_overflow hopens hspecs
      (by decide : batchLimit < 18446744073709551615) .text true
    rw [Request.aftermath] at haftermath
    rw [runIn, hargs]
    simp only [haftermath]
    rfl

end Command
end DeltaMatch
