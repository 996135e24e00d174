import DeltaMatch.Proofs.Graph.EdgeSet

/-!
# Bulk loads

A load adds its edges one after the other and commits them all at once. It succeeds on the
edges that can be stored, and on no others; in what order they come, and how often, makes no
difference to the graph.
-/

namespace DeltaMatch
namespace Graph

variable {g g' : Graph} {slots : Nat} {listed : List Edge}

/-- The edge can be stored in a graph with that many slots. -/
def Loadable (slots : Nat) (e : Edge) : Prop :=
  e.label.isAny = false ∧ e.source.toNat < slots ∧ e.target.toNat < slots

theorem addBelow_eq_ok_iff {e : Edge} :
    addBelow slots g e = .ok g' ↔ Loadable slots e ∧ g' = g.step (.add e) := by
  rw [addBelow, Loadable]
  by_cases hsource : slots ≤ e.source.toNat
  · simp [hsource, Nat.not_lt.mpr hsource]
  by_cases htarget : slots ≤ e.target.toNat
  · simp [hsource, htarget, Nat.not_lt.mpr htarget]
  cases hany : e.label.isAny with
  | true => simp [hsource, htarget, hany, add, Except.map]
  | false =>
    rw [if_neg hsource, if_neg htarget, step, add, hany]
    cases g.hasEdge e <;> simp [Except.map, Nat.not_le.mp hsource, Nat.not_le.mp htarget, eq_comm]

/-- The vertex is the last one of so many slots; without slots there is none. -/
def IsLast (slots : Nat) : Option VertexId → Prop
  | none => slots = 0
  | some v => v.toNat + 1 = slots

theorem isLast_iff {highest : Option VertexId} (h : slots ≤ UInt32.size) :
    IsLast slots highest ↔ highest = highestBelow slots := by
  rw [highestBelow]
  by_cases hzero : slots = 0
  · subst hzero
    cases highest <;> simp [IsLast]
  · have hof : (UInt32.ofNat (slots - 1)).toNat = slots - 1 :=
      UInt32.toNat_ofNat_of_lt' (by omega)
    rw [if_pos ⟨by omega, h⟩]
    cases highest with
    | none => simp [IsLast, hzero]
    | some v =>
      rw [IsLast, Option.some.injEq, ← UInt32.toNat_inj, hof]
      omega

/-- Why an edge cannot be stored: its source, its target and its label are looked at in this
order. -/
inductive LoadFault (slots : Nat) (e : Edge) : GraphError → Prop
  | source {highest : Option VertexId} : slots ≤ e.source.toNat → IsLast slots highest →
      LoadFault slots e (.vertexOutOfBounds e.source highest)
  | target {highest : Option VertexId} : e.source.toNat < slots → slots ≤ e.target.toNat →
      IsLast slots highest → LoadFault slots e (.vertexOutOfBounds e.target highest)
  | wildcard : e.source.toNat < slots → e.target.toNat < slots → e.label.isAny = true →
      LoadFault slots e .wildcardEdge

theorem addBelow_eq_error_iff (h : slots ≤ UInt32.size) {e : Edge} {err : GraphError} :
    addBelow slots g e = .error err ↔ LoadFault slots e err := by
  constructor
  · intro hadd
    have hnot : ¬ Loadable slots e := fun hload => by
      rw [addBelow_eq_ok_iff.mpr ⟨hload, rfl⟩] at hadd
      cases hadd
    rw [addBelow] at hadd
    split at hadd
    · rename_i hsource
      cases hadd
      exact .source hsource ((isLast_iff h).mpr rfl)
    rename_i hsource
    split at hadd
    · rename_i htarget
      cases hadd
      exact .target (Nat.not_le.mp hsource) htarget ((isLast_iff h).mpr rfl)
    rename_i htarget
    have hbounds := And.intro (Nat.not_le.mp hsource) (Nat.not_le.mp htarget)
    have hany : e.label.isAny = true :=
      Bool.not_eq_false _ ▸ fun hlabel => hnot ⟨hlabel, hbounds⟩
    rw [add, if_pos hany] at hadd
    cases hadd
    exact .wildcard hbounds.1 hbounds.2 hany
  · intro hfault
    cases hfault with
    | source hsource hlast =>
      rw [addBelow, if_pos hsource, (isLast_iff h).mp hlast]
    | target hsource htarget hlast =>
      rw [addBelow, if_neg (Nat.not_le.mpr hsource), if_pos htarget, (isLast_iff h).mp hlast]
    | wildcard hsource htarget hany =>
      rw [addBelow, if_neg (Nat.not_le.mpr hsource), if_neg (Nat.not_le.mpr htarget), add,
        if_pos hany]
      rfl

/-- Loading is to add the edges one after the other, each of which can be stored. -/
theorem foldlM_addBelow_eq_ok_iff : listed.foldlM (addBelow slots) g = .ok g' ↔
    (∀ e ∈ listed, Loadable slots e) ∧ g' = (listed.map Op.add).foldl step g := by
  induction listed generalizing g with
  | nil => simp [pure, Except.pure, eq_comm]
  | cons e rest ih =>
    rw [List.foldlM_cons, bind_eq_ok_iff, List.forall_mem_cons, List.map_cons, List.foldl_cons]
    constructor
    · rintro ⟨next, hadd, hfold⟩
      obtain ⟨he, rfl⟩ := addBelow_eq_ok_iff.mp hadd
      obtain ⟨hrest, rfl⟩ := ih.mp hfold
      exact ⟨⟨he, hrest⟩, rfl⟩
    · rintro ⟨⟨he, hrest⟩, rfl⟩
      exact ⟨_, addBelow_eq_ok_iff.mpr ⟨he, rfl⟩, ih.mpr ⟨hrest, rfl⟩⟩

/-- What is wrong with the first of the edges that cannot be stored. -/
def FirstFault (slots : Nat) (listed : List Edge) (err : GraphError) : Prop :=
  ∃ before e after, listed = before ++ e :: after ∧ (∀ e' ∈ before, Loadable slots e') ∧
    LoadFault slots e err

/-- **The first edge that cannot be stored stops the load.** -/
theorem foldlM_addBelow_eq_error_iff (h : slots ≤ UInt32.size) {err : GraphError} :
    listed.foldlM (addBelow slots) g = .error err ↔ FirstFault slots listed err := by
  induction listed generalizing g with
  | nil => simp [FirstFault, pure, Except.pure]
  | cons e rest ih =>
    rw [List.foldlM_cons, bind_eq_error_iff]
    constructor
    · rintro (hadd | ⟨next, hadd, hrest⟩)
      · exact ⟨[], e, rest, rfl, nofun, (addBelow_eq_error_iff h).mp hadd⟩
      · obtain ⟨before, e', after, rfl, hbefore, hfault⟩ := ih.mp hrest
        exact ⟨e :: before, e', after, rfl,
          List.forall_mem_cons.mpr ⟨(addBelow_eq_ok_iff.mp hadd).1, hbefore⟩, hfault⟩
    · rintro ⟨before, e', after, heq, hbefore, hfault⟩
      cases before with
      | nil =>
        cases heq
        exact Or.inl ((addBelow_eq_error_iff h).mpr hfault)
      | cons b before =>
        cases heq
        obtain ⟨he, hbefore⟩ := List.forall_mem_cons.mp hbefore
        exact Or.inr ⟨_, addBelow_eq_ok_iff.mpr ⟨he, rfl⟩,
          ih.mpr ⟨before, e', after, rfl, hbefore, hfault⟩⟩

theorem load_eq_error_iff (h : slots ≤ UInt32.size) {err : GraphError} :
    Graph.load slots listed = .error err ↔ FirstFault slots listed err := by
  rw [← foldlM_addBelow_eq_error_iff (g := .empty) h, Graph.load, stageLoad,
    if_neg (Nat.not_lt.mpr h)]
  cases listed.foldlM (addBelow slots) .empty with
  | error err' => exact Iff.rfl
  | ok staged => exact iff_of_false nofun nofun

theorem stageLoad_eq_ok_iff : stageLoad slots listed = .ok g ↔
    slots ≤ UInt32.size ∧ (∀ e ∈ listed, Loadable slots e) ∧
      g = { (listed.map Op.add).foldl step .empty with
        mergedBound := max ((listed.map Op.add).foldl step .empty).mergedBound slots } := by
  rw [stageLoad]
  by_cases hslots : UInt32.size < slots
  · simp [hslots, Nat.not_le.mpr hslots]
  · rw [if_neg hslots, bind_eq_ok_iff]
    simp only [foldlM_addBelow_eq_ok_iff]
    constructor
    · rintro ⟨staged, ⟨hlisted, rfl⟩, hraise⟩
      cases hraise
      exact ⟨Nat.not_lt.mp hslots, hlisted, rfl⟩
    · rintro ⟨-, hlisted, rfl⟩
      exact ⟨_, ⟨hlisted, rfl⟩, rfl⟩

/-! ## What a load holds -/

theorem isEdit_of_mem_adds (listed : List Edge) : ∀ op ∈ listed.map Op.add, op.isEdit = true := by
  intro op hop
  obtain ⟨e, -, rfl⟩ := List.mem_map.mp hop
  rfl

theorem foldl_onEdges_add (hlisted : ∀ e ∈ listed, Loadable slots e) (edges : Finset Edge) :
    (listed.map Op.add).foldl Op.onEdges edges = edges ∪ listed.toFinset := by
  induction listed generalizing edges with
  | nil => simp
  | cons e rest ih =>
    obtain ⟨he, hrest⟩ := List.forall_mem_cons.mp hlisted
    have hadd : Op.onEdges edges (.add e) = insert e edges := by simp [Op.onEdges, he.1]
    rw [List.map_cons, List.foldl_cons, hadd, ih hrest, List.toFinset_cons, Finset.insert_union,
      Finset.union_insert]

/-- Edges that can be stored need no further slots. -/
theorem foldl_onSlots_add (hlisted : ∀ e ∈ listed, Loadable slots e) (n : Nat) :
    max ((listed.map Op.add).foldl Op.onSlots n) slots = max n slots := by
  induction listed generalizing n with
  | nil => rfl
  | cons e rest ih =>
    obtain ⟨⟨hlabel, hsource, htarget⟩, hrest⟩ := List.forall_mem_cons.mp hlisted
    rw [List.map_cons, List.foldl_cons, ih hrest, Op.onSlots, hlabel]
    simp only [Bool.false_eq_true, if_false]
    omega

/-- The graph holds these edges in that many slots, without labels on its vertices. -/
structure LoadOf (slots : Nat) (listed : List Edge) (g : Graph) : Prop where
  has_iff : ∀ e, g.Has .permanent e ↔ e ∈ listed
  vertexCount_eq : ∀ view, g.vertexCount view = slots
  unlabelled : g.vertexLabels = #[]

theorem LoadOf.of_load (h : Graph.load slots listed = .ok g) : LoadOf slots listed g := by
  obtain ⟨staged, hstage, rfl⟩ := map_eq_ok_iff.mp h
  have hstaged := WellFormed.stageLoad hstage
  obtain ⟨-, hlisted, heq⟩ := stageLoad_eq_ok_iff.mp hstage
  obtain ⟨hedges, hslots⟩ := edits_run WellFormed.empty (isEdit_of_mem_adds listed)
  have hlabels := (edit_run (g := .empty) (isEdit_of_mem_adds listed)).1.labels
  -- the graph before bare slots are added and all is committed
  generalize hadded : (listed.map Op.add).foldl step .empty = added at hedges hslots hlabels heq
  have hwf : added.WellFormed := hadded ▸ WellFormed.empty.foldl _
  refine ⟨fun e => ?_, fun view => ?_, ?_⟩
  · have hempty : Graph.empty.edgeSet .merged = ∅ := rfl
    rw [hstaged.has_commit, heq]
    show added.Has .merged e ↔ e ∈ listed
    rw [← mem_edgeSet hwf, hedges, foldl_onEdges_add hlisted, hempty, Finset.empty_union,
      List.mem_toFinset]
  · rw [hstaged.vertexCount_commit, heq]
    show max added.mergedBound slots = slots
    rw [hslots, foldl_onSlots_add hlisted]
    exact Nat.max_eq_right (Nat.zero_le _)
  · rw [vertexLabels_commit, heq]
    exact hlabels

/-- **A bulk load succeeds** exactly on the edges that can be stored. -/
theorem exists_load_iff : (∃ g, Graph.load slots listed = .ok g) ↔
    slots ≤ UInt32.size ∧ ∀ e ∈ listed, Loadable slots e := by
  constructor
  · rintro ⟨g, h⟩
    obtain ⟨staged, hstage, -⟩ := map_eq_ok_iff.mp h
    obtain ⟨hslots, hlisted, -⟩ := stageLoad_eq_ok_iff.mp hstage
    exact ⟨hslots, hlisted⟩
  · rintro ⟨hslots, hlisted⟩
    exact ⟨_, congrArg (Except.map _) (stageLoad_eq_ok_iff.mpr ⟨hslots, hlisted, rfl⟩)⟩

/-- The graph has nothing pending, and so many slots and these edges in either direction. -/
structure Loaded (slots : Nat) (listed : List Edge) (g : Graph) : Prop where
  settled : g.hasPending = false
  vertexCount_eq : ∀ view, g.vertexCount view = slots
  mem_list : ∀ d v n, n ∈ g.list .permanent d v ↔ n.edgeOf d v ∈ listed

theorem Loaded.of_load (h : Graph.load slots listed = .ok g) : Loaded slots listed g := by
  have hwf := WellFormed.load h
  have hload := LoadOf.of_load h
  refine ⟨hwf.hasPending_eq_false_iff.mpr (Origin.load h).idle, hload.vertexCount_eq,
    fun d v n => ?_⟩
  rw [hwf.mem_list, hload.has_iff]

/-- A loaded graph counts each listed edge once. -/
theorem edgeCount_of_load (h : Graph.load slots listed = .ok g) :
    g.edgeCount = listed.toFinset.card := by
  have hwf := WellFormed.load h
  have hedges : g.edgeSet .permanent = listed.toFinset := by
    ext e
    rw [mem_edgeSet hwf, (LoadOf.of_load h).has_iff, List.mem_toFinset]
  rw [hwf.edgeCount_eq_card, hedges]

/-- A loaded graph is laid out by its committed lists. -/
theorem eq_of_load (h : Graph.load slots listed = .ok g) :
    g = ⟨⟨g.forward.committed, ∅⟩, ⟨g.backward.committed, ∅⟩, #[], .empty, .empty, slots,
      slots⟩ := by
  have hload := LoadOf.of_load h
  obtain ⟨staged, hstage, rfl⟩ := map_eq_ok_iff.mp h
  have hlabels := hload.unlabelled
  have hslots : staged.mergedBound = slots :=
    ((WellFormed.stageLoad hstage).vertexCount_commit .merged).symm.trans
      (hload.vertexCount_eq .merged)
  rcases commit_cases staged with ⟨-, heq⟩ | ⟨hnone, heq⟩
  · rw [heq] at hlabels ⊢
    rw [← hslots, ← hlabels]
    rfl
  -- nothing is pending only if there was nothing to add, not even a slot
  · obtain ⟨-, hlisted, rfl⟩ := stageLoad_eq_ok_iff.mp hstage
    have hidle := (WellFormed.stageLoad hstage).hasPending_eq_false_iff.mp hnone
    have hzero : slots = 0 := by
      rw [← hslots, hidle.bounds]
      exact (edit_run (g := .empty) (isEdit_of_mem_adds listed)).1.bound
    subst hzero
    have hnil : listed = [] := List.eq_nil_iff_forall_not_mem.mpr fun e he =>
      absurd (hlisted e he).2.1 (Nat.not_lt_zero _)
    subst hnil
    rw [heq]
    rfl

/-- **The edges of a load determine the graph**: in what order they come, and how often, makes
no difference. -/
theorem load_congr {listed' : List Edge} (hsame : ∀ e, e ∈ listed ↔ e ∈ listed')
    (h : Graph.load slots listed = .ok g) : Graph.load slots listed' = .ok g := by
  obtain ⟨hslots, hlisted⟩ := exists_load_iff.mp ⟨g, h⟩
  obtain ⟨g', h'⟩ := exists_load_iff.mpr
    ⟨hslots, fun e he => hlisted e ((hsame e).mpr he)⟩
  have hload := LoadOf.of_load h
  have hload' := LoadOf.of_load h'
  have hwf := WellFormed.load h
  have hwf' := WellFormed.load h'
  have hcommitted : ∀ d, (g.layers d).committed = (g'.layers d).committed := by
    intro d
    have hbound : g.permanentBound = g'.permanentBound :=
      (hload.vertexCount_eq .permanent).trans (hload'.vertexCount_eq .permanent).symm
    have hhas : ∀ e, g.Has .permanent e ↔ g'.Has .permanent e := fun e => by
      rw [hload.has_iff, hload'.has_iff, hsame]
    apply Array.toList_inj.mp
    rw [hwf.toList_committed, hwf'.toList_committed, hbound]
    simp only [hwf.list_eq_of_has hwf'.toCoherent hhas]
  have hforward : g.forward.committed = g'.forward.committed := hcommitted .forward
  have hbackward : g.backward.committed = g'.backward.committed := hcommitted .backward
  rw [h', eq_of_load h, eq_of_load h', hforward, hbackward]

/-- What is stored can be stored again. -/
theorem WellFormed.loadable_of_has (h : g.WellFormed) {view : View} {e : Edge}
    (he : g.Has view e) : Loadable (g.vertexCount view) e :=
  ⟨h.concrete_of_has he, h.anchor_lt he .forward, h.anchor_lt he .backward⟩

/-- **The committed lists of a graph are those of a bulk load** of its committed edges, in
whatever order they are listed. -/
theorem WellFormed.exists_same_load (h : g.WellFormed)
    (hlisted : ∀ e, g.Has .permanent e ↔ e ∈ listed) :
    ∃ loaded, Graph.load (g.vertexCount .permanent) listed = .ok loaded ∧
      ∀ d v, g.list .permanent d v = loaded.list .permanent d v := by
  have hloadable : ∀ e ∈ listed, Loadable (g.vertexCount .permanent) e :=
    fun e he => h.loadable_of_has ((hlisted e).mpr he)
  obtain ⟨loaded, hload⟩ := exists_load_iff.mpr ⟨h.vertexCount_le .permanent, hloadable⟩
  have hsame : ∀ e, g.Has .permanent e ↔ loaded.Has .permanent e := by
    intro e
    rw [hlisted, (LoadOf.of_load hload).has_iff]
  exact ⟨loaded, hload, h.list_eq_of_has (WellFormed.load hload).toCoherent hsame⟩

end Graph
end DeltaMatch
