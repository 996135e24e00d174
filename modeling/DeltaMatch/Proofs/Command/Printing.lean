import DeltaMatch.Command.Run
import DeltaMatch.Proofs.Json.Records

/-!
# What matches and deltas print

Matches are printed as rows or as their number, a delta as two lists of rows. The printed JSON
gives the rows away, so that what is said about printed rows is said about one list only.
-/

namespace DeltaMatch

/-- A printed line tells the fields of its record. -/
theorem Json.fields_eq_of_line {fields fields' : List (String × Json)}
    (h : ∀ f ∈ fields, f.2.HasText) (h' : ∀ f ∈ fields', f.2.HasText)
    (heq : (record fields).render ++ "\n" = (record fields').render ++ "\n") :
    fields = fields' := by
  have hparsed := congrArg parse? ((String.append_left_inj _).mp heq)
  rw [parse?_render (hasText_record h), parse?_render (hasText_record h'),
    Option.some.injEq] at hparsed
  refine (List.map_inj_right ?_).mp (Json.object.inj hparsed)
  rintro ⟨name, value⟩ ⟨name', value'⟩ hfield
  simpa using hfield

namespace Command

variable {d d' d'' : Directory} {path : String} {specs : List String} {edits : List Edit}
  {p : Pattern} {rows rows' : List Tuple} {c c' : ChangeSet} {commit : Bool}

/-- What a request leaves behind when it is carried out in a directory. -/
def Request.aftermath (r : Request) (format : OutputFormat) (d : Directory) : Aftermath :=
  (r.action format).runIn d ""

/-! ## Texts -/

/-- The rows of a match as they are printed. -/
def matchesText (format : OutputFormat) (p : Pattern) (rows : List Tuple) : String :=
  match format with
  | .text => tuplesText p "matches" rows
  | .json => (Json.record [("matches", tuplesJson rows), ("vars", varsJson p)]).render ++ "\n"

/-- A number of rows as it is printed. -/
def countText (format : OutputFormat) (n : Nat) : String :=
  match format with
  | .text => toString n ++ "\n"
  | .json => (Json.record [("count", .nat n)]).render ++ "\n"

/-- The rows of a delta as they are printed. -/
def changesText (format : OutputFormat) (p : Pattern) (c : ChangeSet) : String :=
  match format with
  | .text => tuplesText p "emerged" c.emerged ++ tuplesText p "deleted" c.deleted
  | .json => (Json.record [("deleted", tuplesJson c.deleted), ("emerged", tuplesJson c.emerged),
      ("vars", varsJson p)]).render ++ "\n"

theorem hasText_tuplesJson (rows : List Tuple) : (tuplesJson rows).HasText := by
  refine Json.hasText_array (fun t => ?_) rows
  exact Json.hasText_array (fun v => Json.hasText_nat v.toNat) t

theorem hasText_varsJson (p : Pattern) : (varsJson p).HasText :=
  Json.hasText_array (fun name => .string name) p.vars

theorem tuplesJson_injective (h : tuplesJson rows = tuplesJson rows') : rows = rows' := by
  have hword : ∀ v v' : VertexId, Json.nat v.toNat = .nat v'.toNat → v = v' :=
    fun v v' h => UInt32.toNat_inj.mp (Int.ofNat.inj (Json.integer.inj h))
  have htuple : ∀ t t' : Tuple,
      Json.array (t.map (.nat ·.toNat)) = .array (t'.map (.nat ·.toNat)) → t = t' :=
    fun t t' h => (List.map_inj_right hword).mp (Json.array.inj h)
  exact (List.map_inj_right htuple).mp (Json.array.inj h)

theorem eq_of_matchesText (h : matchesText .json p rows = matchesText .json p rows') :
    rows = rows' := by
  have hfields := Json.fields_eq_of_line (by simp [hasText_tuplesJson, hasText_varsJson])
    (by simp [hasText_tuplesJson, hasText_varsJson]) h
  simp only [List.cons.injEq, Prod.mk.injEq] at hfields
  exact tuplesJson_injective hfields.1.2

theorem eq_of_changesText (h : changesText .json p c = changesText .json p c') : c = c' := by
  have hfields := Json.fields_eq_of_line (by simp [hasText_tuplesJson, hasText_varsJson])
    (by simp [hasText_tuplesJson, hasText_varsJson]) h
  simp only [List.cons.injEq, Prod.mk.injEq] at hfields
  obtain ⟨⟨-, hdeleted⟩, ⟨-, hemerged⟩, -⟩ := hfields
  rw [ChangeSet.mk.injEq]
  exact ⟨tuplesJson_injective hemerged, tuplesJson_injective hdeleted⟩

/-! ## Runs that print -/

/-- In either format and with batches of any size that can be reserved a match prints the rows,
and their number when it is asked to count. It writes nothing. -/
def PrintsMatches (d : Directory) (path : String) (specs : List String) (p : Pattern)
    (rows : List Tuple) : Prop :=
  ∀ format n, n ≤ batchLimit →
    (Request.listMatches ⟨path, specs, n⟩ false).aftermath format d =
        ⟨d, matchesText format p rows, none⟩ ∧
      (Request.listMatches ⟨path, specs, n⟩ true).aftermath format d =
        ⟨d, countText format rows.length, none⟩

/-- In either format and with batches of any size that can be reserved a delta prints the changes
and leaves the directory behind. -/
def PrintsChanges (d : Directory) (path : String) (specs : List String) (edits : List Edit)
    (commit : Bool) (p : Pattern) (c : ChangeSet) (d' : Directory) : Prop :=
  ∀ format n, n ≤ batchLimit →
    (Request.delta ⟨path, specs, n⟩ edits commit).aftermath format d =
      ⟨d', changesText format p c, none⟩

/-- **A match prints one list of rows.** -/
theorem PrintsMatches.unique (h : PrintsMatches d path specs p rows)
    (h' : PrintsMatches d path specs p rows') : rows = rows' := by
  have hsize := Nat.zero_le batchLimit
  have heq := (h .json 0 hsize).1.symm.trans (h' .json 0 hsize).1
  exact eq_of_matchesText (Aftermath.mk.inj heq).2.1

/-- **A delta prints one set of changes.** -/
theorem PrintsChanges.unique (h : PrintsChanges d path specs edits commit p c d')
    (h' : PrintsChanges d path specs edits commit p c' d'') : c = c' := by
  have hsize := Nat.zero_le batchLimit
  have heq := (h .json 0 hsize).symm.trans (h' .json 0 hsize)
  exact eq_of_changesText (Aftermath.mk.inj heq).2.1

end Command
end DeltaMatch
