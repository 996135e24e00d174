import DeltaMatch.Command.Run
import DeltaMatch.Proofs.Command.Directory
import DeltaMatch.Proofs.EdgeSpec
import DeltaMatch.Proofs.Graph.SnapshotText
import DeltaMatch.Proofs.Snapshot
import DeltaMatch.Proofs.Text.Encoding

/-!
# What a command reads

A command goes on with the graph of a snapshot file and with its edits, or fails before it has
written anything. Edits that can be read can also be made.
-/

namespace DeltaMatch

namespace Command

variable {g : Graph}

/-! ## Edits -/

/-- The edge of the edit can be read. -/
def Edit.Parses (e : Edit) : Prop := ∃ edge, Edge.ofSpec e.spec = .ok edge

/-- The request that an edit makes. -/
def Edit.op (e : Edit) (edge : Edge) : Graph.Op :=
  match e.kind with
  | .add => .add edge
  | .delete => .delete edge

theorem applyEdit_eq {e : Edit} {edge : Edge} (h : Edge.ofSpec e.spec = .ok edge) (g : Graph) :
    applyEdit g e = .ok (g.step (e.op edge)) := by
  have hany := Edge.isAny_ofSpec h
  obtain ⟨kind, spec⟩ := e
  -- neither kind of edit is turned down, since the label is concrete
  cases kind with
  | add =>
    by_cases hedge : g.hasEdge edge = true
    · simp [applyEdit, h, Edit.op, Graph.step, Graph.add, hany, hedge]
    · simp [applyEdit, h, Edit.op, Graph.step, Graph.add, hany, hedge]
  | delete =>
    by_cases hedge : g.hasEdge edge = true
    · simp [applyEdit, h, Edit.op, Graph.step, Graph.delete, hany, hedge]
    · simp [applyEdit, h, Edit.op, Graph.step, Graph.delete, hany, hedge]

theorem Edit.isEdit_op (e : Edit) (edge : Edge) : (e.op edge).isEdit = true := by
  obtain ⟨kind, spec⟩ := e
  cases kind <;> rfl

/-- **Edits that can be read are made**, as the requests that they stand for. -/
theorem exists_ops_of_parses {edits : List Edit} (h : ∀ e ∈ edits, e.Parses) :
    ∃ ops : List Graph.Op, (∀ op ∈ ops, op.isEdit = true) ∧
      ∀ g, edits.foldlM applyEdit g = .ok (ops.foldl Graph.step g) := by
  induction edits with
  | nil => exact ⟨[], nofun, fun g => rfl⟩
  | cons e rest ih =>
    obtain ⟨⟨edge, hedge⟩, hrest⟩ := List.forall_mem_cons.mp h
    obtain ⟨ops, hops, hfold⟩ := ih hrest
    refine ⟨e.op edge :: ops, List.forall_mem_cons.mpr ⟨e.isEdit_op edge, hops⟩, fun g => ?_⟩
    rw [List.foldlM_cons, applyEdit_eq hedge]
    exact hfold _

theorem parses_of_applyEdit {g' : Graph} {e : Edit} (h : applyEdit g e = .ok g') : e.Parses := by
  rw [applyEdit] at h
  split at h
  · cases h
  · rename_i edge hedge
    exact ⟨edge, hedge⟩

theorem parses_of_foldlM {g' : Graph} {edits : List Edit}
    (h : edits.foldlM applyEdit g = .ok g') : ∀ e ∈ edits, e.Parses := by
  induction edits generalizing g with
  | nil => exact nofun
  | cons e rest ih =>
    rw [List.foldlM_cons] at h
    obtain ⟨next, hnext, hrest⟩ := bind_eq_ok_iff.mp h
    exact List.forall_mem_cons.mpr ⟨parses_of_applyEdit hnext, ih hrest⟩

/-- What comes about by edits is reachable. -/
theorem reachable_of_edits {g' : Graph} {edits : List Edit} (hg : g.Reachable)
    (h : edits.foldlM applyEdit g = .ok g') : g'.Reachable := by
  obtain ⟨ops, -, hfold⟩ := exists_ops_of_parses (parses_of_foldlM h)
  obtain rfl : g' = ops.foldl Graph.step g := Except.ok.inj (h.symm.trans (hfold g))
  exact hg.foldl ops

/-- An edit that cannot be read fails all of them. -/
theorem exists_error_of_not_parses {edits : List Edit} (h : ∃ e ∈ edits, ¬ e.Parses) (g : Graph) :
    ∃ cause, edits.foldlM applyEdit g = .error cause := by
  obtain ⟨e, he, hparses⟩ := h
  cases hfold : edits.foldlM applyEdit g with
  | error cause => exact ⟨cause, rfl⟩
  | ok g' => exact absurd (parses_of_foldlM hfold e he) hparses

/-! ## Snapshots -/

/-- The file holds the text of a snapshot that restores to the graph. -/
def Directory.Opens (d : Directory) (path : String) (g : Graph) : Prop :=
  ∃ content s, d.read? path = some content ∧
    (String.fromUTF8? content).bind Snapshot.read? = some s ∧ Graph.restore s = .ok g

variable {d d' : Directory} {path : String}

theorem runIn_openSnapshot (h : d.Opens path g) (next : Graph → Action) (output : String) :
    (openSnapshot path next).runIn d output = (next g).runIn d output := by
  obtain ⟨content, s, hread, hsnapshot, hrestore⟩ := h
  simp only [openSnapshot, Action.runIn, hread, hsnapshot, hrestore]

/-- Without a graph the command fails before it does anything. -/
theorem runIn_openSnapshot_of_not_opens (h : ¬ ∃ g, d.Opens path g) (next : Graph → Action)
    (output : String) :
    ∃ cause, (openSnapshot path next).runIn d output = ⟨d, output, some cause⟩ := by
  rw [openSnapshot, Action.runIn]
  cases hread : d.read? path with
  | none => exact ⟨_, rfl⟩
  | some content =>
    simp only
    cases hsnapshot : (String.fromUTF8? content).bind Snapshot.read? with
    | none => exact ⟨_, rfl⟩
    | some s =>
      simp only
      cases hrestore : Graph.restore s with
      | error e => exact ⟨_, rfl⟩
      | ok g => exact absurd ⟨g, content, s, hread, hsnapshot, hrestore⟩ h

/-- An opened graph has just come about. -/
theorem Directory.Opens.origin (h : d.Opens path g) : Graph.Origin g := by
  obtain ⟨content, s, -, -, hrestore⟩ := h
  exact .restore hrestore

/-- The file of an opened graph can be replaced. -/
theorem Directory.Opens.exists_write? (h : d.Opens path g) (content : String) :
    ∃ d', d.write? path content = some d' := by
  obtain ⟨old, -, hread, -⟩ := h
  exact Directory.exists_write? hread content

/-- A snapshot that can be restored can be opened where its text lies. -/
theorem exists_opens_of_restorable {s : Snapshot} (hread : d.read? path = some s.write.toUTF8)
    (hlabels : s.vertexLabels.length ≤ UInt32.size) (h : s.Restorable) :
    ∃ g, d.Opens path g ∧ s.Describes g := by
  obtain ⟨g, hrestore⟩ := (Graph.exists_restore_iff hlabels).mpr h
  have hslots : s.vertexCount < UInt64.size := Nat.lt_of_le_of_lt h.slots (by decide)
  refine ⟨g, ⟨_, s, hread, ?_, hrestore⟩, Graph.describes_of_restore hlabels hrestore⟩
  rw [fromUTF8?_toUTF8, Option.bind_some, Snapshot.read?_write s hslots]

/-- **A graph that was written can be opened**, with the edges that it had committed. -/
theorem exists_opens_of_write? (hg : g.Reachable) (h : d.write? path g.snapshot.write = some d') :
    ∃ g', d'.Opens path g' ∧ ∀ e, g'.Has .permanent e ↔ g.Has .permanent e := by
  obtain ⟨g', hrestore, hlists, -⟩ := hg.exists_restore_snapshot
  have hslots : g.snapshot.vertexCount < UInt64.size :=
    Nat.lt_of_le_of_lt (hg.wellFormed.vertexCount_le .permanent) (by decide)
  refine ⟨g', ⟨_, g.snapshot, Directory.read?_of_write? h, ?_, hrestore⟩, fun e => ?_⟩
  · rw [fromUTF8?_toUTF8, Option.bind_some, Snapshot.read?_write _ hslots]
  · rw [Graph.Has, hlists, Graph.Has]

end Command
end DeltaMatch
