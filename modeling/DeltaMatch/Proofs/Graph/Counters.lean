import DeltaMatch.Graph.Counters
import DeltaMatch.Proofs.Graph.Accounting
import DeltaMatch.Proofs.Graph.BulkLoad

/-!
# What the counters count

The counters of a graph are installed before it is built. From then on they agree with what its
answers add up to: the edits that took effect, those of a bulk load included, and the commits
that found something pending, with the lists that these replaced.
-/

namespace DeltaMatch
namespace CountedGraph

open DeltaMatch.Graph (Op Batch tookEffect)

/-- What a counted graph is asked for. -/
inductive Request where
  | change (op : Op)
  | neighbours (v : VertexId) (d : Direction) (view : View)
  /-- Lookups that an execution has made. -/
  | lookups (l : Lookups)

/-- The change that is asked for, if there is one. -/
def Request.op? : Request → Option Op
  | .change op => some op
  | .neighbours .. | .lookups _ => none

/-- The counted graph after a request. -/
def serve (c : CountedGraph) : Request → CountedGraph
  | .change (.add e) => match c.add e with
    | .ok (c', _) => c'
    | .error _ => c
  | .change (.delete e) => match c.delete e with
    | .ok (c', _) => c'
    | .error _ => c
  | .change (.label v l) => match c.setVertexLabel v l with
    | .ok c' => c'
    | .error _ => c
  | .change .commit => c.commit.1
  | .change .discard => c.discard.1
  | .neighbours v d view => match c.neighbours v d view with
    | .ok (c', _) => c'
    | .error _ => c
  | .lookups l => c.recordLookups l

/-- What the answers of a history add up to. -/
structure Totals where
  added : Nat := 0
  deleted : Nat := 0
  commits : Nat := 0
  lists : Nat := 0

namespace Totals

/-- One more commit, if it found something pending. -/
def commit (t : Totals) (pending : Bool) (stats : CommitStats) : Totals :=
  if pending then { t with commits := t.commits + 1, lists := t.lists + stats.listsReplaced }
  else t

/-- The totals with the answer to a request. -/
def next (t : Totals) (c : CountedGraph) : Request → Totals
  | .change (.add e) => if tookEffect (c.add e) then { t with added := t.added + 1 } else t
  | .change (.delete e) => if tookEffect (c.delete e) then { t with deleted := t.deleted + 1 } else t
  | .change .commit => t.commit c.graph.hasPending c.commit.2
  | .change (.label ..) | .change .discard | .neighbours .. | .lookups _ => t

/-- The totals after a history. -/
def after (t : Totals) (c : CountedGraph) : List Request → Totals
  | [] => t
  | r :: rest => (t.next c r).after (c.serve r) rest

/-- What a load adds up to: the additions that took effect, one after the other, and the commit
of the staged graph. -/
def ofLoad (edges : List Edge) (staged : Graph) : Totals :=
  commit { added := (Batch.after {} .empty (edges.map .add)).added.length } staged.hasPending
    staged.commit.2

end Totals

/-- A counted graph as it is built, and what was counted on the way. -/
inductive Built : CountedGraph → Totals → Prop
  | empty : Built (.empty true) {}
  | load {slots : Nat} {edges : List Edge} {staged : Graph} {c : CountedGraph} :
      Graph.stageLoad slots edges = .ok staged → CountedGraph.load true slots edges = .ok c →
      Built c (.ofLoad edges staged)
  | restore {s : Snapshot} {staged : Graph} {c : CountedGraph} :
      Graph.stageLoad s.vertexCount s.edges = .ok staged → CountedGraph.restore true s = .ok c →
      Built c (.ofLoad s.edges staged)

/-- What the counters make of the answers. -/
def totals (k : Counters) : Totals := ⟨k.edgesAdded, k.edgesDeleted, k.commits, k.listsCommitted⟩

/-- The graph is counted, and its counters show the totals. -/
def Shows (c : CountedGraph) (t : Totals) : Prop := c.counters.map totals = some t

variable {c : CountedGraph} {t : Totals}

/-! ## The graph goes its own way -/

theorem commit_of_pending (h : c.graph.hasPending = true) :
    c.commit = (({ c with graph := c.graph.commit.1 } : CountedGraph).count fun k =>
      { k with commits := k.commits + 1
               listsCommitted := k.listsCommitted + c.graph.commit.2.listsReplaced },
      c.graph.commit.2) :=
  if_pos h

theorem graph_commit (c : CountedGraph) : c.commit.1.graph = c.graph.commit.1 := by
  cases hpending : c.graph.hasPending with
  | true => rw [commit_of_pending hpending, count]
  | false => simp [commit, hpending, Graph.commit_of_not_pending hpending]

theorem snd_commit (c : CountedGraph) : c.commit.2 = c.graph.commit.2 := by
  cases hpending : c.graph.hasPending <;> simp [commit, hpending]

theorem graph_serve_change (c : CountedGraph) (op : Op) :
    (c.serve (.change op)).graph = c.graph.step op := by
  obtain ⟨g, counters⟩ := c
  cases op with
  | add e =>
    rw [serve, CountedGraph.add, Graph.step]
    rcases g.add e with err | ⟨g', _ | _⟩ <;> rfl
  | delete e =>
    rw [serve, CountedGraph.delete, Graph.step]
    rcases g.delete e with err | ⟨g', _ | _⟩ <;> rfl
  | label v l =>
    rw [serve, CountedGraph.setVertexLabel, Graph.step]
    rcases g.setVertexLabel v l with err | g' <;> rfl
  | commit => exact graph_commit _
  | discard => rfl

theorem graph_serve (c : CountedGraph) (r : Request) :
    (c.serve r).graph = r.op?.toList.foldl Graph.step c.graph := by
  cases r with
  | change op => exact graph_serve_change c op
  | neighbours v d view =>
    rw [serve, CountedGraph.neighbours]
    cases c.graph.neighbours v d view <;> rfl
  | lookups l => rfl

/-- **The changes alone decide about the graph.** -/
theorem graph_foldl_serve (c : CountedGraph) (requests : List Request) :
    (requests.foldl serve c).graph = (requests.filterMap Request.op?).foldl Graph.step c.graph := by
  induction requests generalizing c with
  | nil => rfl
  | cons r rest ih =>
    rw [List.foldl_cons, ih, graph_serve, List.filterMap_cons]
    cases r.op? <;> rfl

theorem graph_load {slots : Nat} {edges : List Edge} (h : load true slots edges = .ok c) :
    Graph.load slots edges = .ok c.graph := by
  rw [load] at h
  split at h
  · cases h
  · rename_i staged hstage
    cases h
    rw [Graph.load, hstage, graph_commit]
    rfl

theorem Built.origin (h : Built c t) : Graph.Origin c.graph := by
  cases h with
  | empty => exact .empty
  | load _ hload => exact .load (graph_load hload)
  | @restore s _ _ _ hrestore =>
    rw [CountedGraph.restore] at hrestore
    split at hrestore
    · cases hrestore
    · rename_i loaded hload
      obtain ⟨g, hlabels, rfl⟩ := map_eq_ok_iff.mp hrestore
      have hgraph : Graph.restore s = .ok g := by
        rw [Graph.restore, graph_load hload]
        exact hlabels
      exact .restore hgraph

/-! ## Along a history -/

theorem Shows.count (h : c.Shows t) {change : Counters → Counters} {f : Totals → Totals}
    (hchange : ∀ k, totals (change k) = f (totals k)) : (c.count change).Shows (f t) := by
  have hcomp : totals ∘ change = f ∘ totals := funext hchange
  show (c.counters.map change).map totals = some (f t)
  rw [Option.map_map, hcomp, ← Option.map_map, h]
  rfl

theorem Shows.commit (h : c.Shows t) :
    c.commit.1.Shows (t.commit c.graph.hasPending c.commit.2) := by
  have hgraph : Shows { c with graph := c.graph.commit.1 } t := h
  rw [Totals.commit]
  by_cases hpending : c.graph.hasPending
  · rw [if_pos hpending, commit_of_pending hpending]
    exact hgraph.count (f := fun t => { t with
      commits := t.commits + 1, lists := t.lists + c.graph.commit.2.listsReplaced }) fun _ => rfl
  · have heq : c.commit.1 = c := congrArg Prod.fst (if_neg hpending)
    rw [if_neg hpending, heq]
    exact h

/-- **A request keeps the counters at what was answered.** -/
theorem Shows.serve (h : c.Shows t) (r : Request) : (c.serve r).Shows (t.next c r) := by
  obtain ⟨g, counters⟩ := c
  cases r with
  | change op =>
    cases op with
    | add e =>
      rw [CountedGraph.serve, Totals.next, CountedGraph.add]
      rcases g.add e with err | ⟨g', _ | _⟩
      · exact h
      · exact h
      · exact Shows.count (c := ⟨g', counters⟩) (f := fun t => { t with added := t.added + 1 }) h
          fun _ => rfl
    | delete e =>
      rw [CountedGraph.serve, Totals.next, CountedGraph.delete]
      rcases g.delete e with err | ⟨g', _ | _⟩
      · exact h
      · exact h
      · exact Shows.count (c := ⟨g', counters⟩)
          (f := fun t => { t with deleted := t.deleted + 1 }) h fun _ => rfl
    | label v l =>
      rw [CountedGraph.serve, Totals.next, CountedGraph.setVertexLabel]
      rcases g.setVertexLabel v l with err | g' <;> exact h
    | commit => exact h.commit
    | discard => exact h
  | neighbours v d view =>
    rw [CountedGraph.serve, Totals.next, CountedGraph.neighbours]
    rcases g.neighbours v d view with err | list
    · exact h
    · exact h.count (f := id) fun _ => rfl
  | lookups l => exact h.count (f := id) fun _ => rfl

theorem Shows.foldl (h : c.Shows t) (requests : List Request) :
    (requests.foldl CountedGraph.serve c).Shows (t.after c requests) := by
  induction requests generalizing c t with
  | nil => exact h
  | cons r rest ih => exact ih (h.serve r)

/-! ## A load -/

theorem deleted_after_adds (b : Batch) (g : Graph) (edges : List Edge) :
    (b.after g (edges.map .add)).deleted = b.deleted := by
  induction edges generalizing b g with
  | nil => rfl
  | cons e rest ih =>
    refine (ih (b.next g (.add e)) (g.step (.add e))).trans ?_
    rw [Batch.next]
    split <;> rfl

/-- A load takes the count of its additions from the log that they leave. -/
theorem length_added_of_stageLoad {slots : Nat} {edges : List Edge} {staged : Graph}
    (h : Graph.stageLoad slots edges = .ok staged) :
    (Batch.after {} .empty (edges.map .add)).added.length = staged.diffPlus.size := by
  obtain ⟨-, -, rfl⟩ := Graph.stageLoad_eq_ok_iff.mp h
  have hlogs := (Batch.accounts_after .empty (edges.map .add)).logs
  have hwf : ((edges.map Op.add).foldl Graph.step .empty).WellFormed := .foldl .empty _
  -- nothing is committed yet that could await its deletion
  have hminus : ((edges.map Op.add).foldl Graph.step .empty).diffMinus.size = 0 := by
    have hpermanent : ((edges.map Op.add).foldl Graph.step .empty).edgeSet .permanent = ∅ :=
      Graph.edgeSet_permanent_of_edits .empty (Graph.isEdit_of_mem_adds edges)
    rw [hwf.size_diffMinus, hpermanent, Finset.empty_sdiff, Finset.card_empty]
  rw [deleted_after_adds, hminus] at hlogs
  exact Int.ofNat_inj.mp (by simpa using hlogs)

theorem Shows.load {slots : Nat} {edges : List Edge} {staged : Graph}
    (hstage : Graph.stageLoad slots edges = .ok staged)
    (hload : CountedGraph.load true slots edges = .ok c) : c.Shows (.ofLoad edges staged) := by
  rw [CountedGraph.load, hstage] at hload
  cases hload
  have hstaged : Shows ⟨staged, some { edgesAdded := staged.diffPlus.size }⟩
      { added := (Batch.after {} .empty (edges.map .add)).added.length } := by
    rw [length_added_of_stageLoad hstage]
    rfl
  rw [Totals.ofLoad, ← snd_commit ⟨staged, some { edgesAdded := staged.diffPlus.size }⟩]
  exact hstaged.commit

/-- **A graph is built with its counters at what was done on the way.** -/
theorem Built.shows (h : Built c t) : c.Shows t := by
  cases h with
  | empty => rfl
  | load hstage hload => exact .load hstage hload
  | restore hstage hrestore =>
    rw [CountedGraph.restore] at hrestore
    split at hrestore
    · cases hrestore
    · rename_i loaded hload
      obtain ⟨g, -, rfl⟩ := map_eq_ok_iff.mp hrestore
      exact Shows.load (c := loaded) hstage hload

/-- **Accounting.** After every history of a graph, what is pending, what a commit reports and what
a discard drops are those of the edits that took effect since the last commit or discard; and
counters that were installed before the graph was built show what the answers since then add up
to. -/
theorem accounting_exact :
    (∀ (start : Graph) (ops : List Op), Graph.Origin start →
      (Batch.after {} start ops).Accounts (ops.foldl Graph.step start)) ∧
    ∀ (c : CountedGraph) (t : Totals) (requests : List Request), Built c t →
      (Batch.after {} c.graph (requests.filterMap Request.op?)).Accounts
        (requests.foldl serve c).graph ∧
      (requests.foldl serve c).Shows (t.after c requests) := by
  refine ⟨fun start ops horigin => Batch.accounts_after horigin ops,
    fun c t requests hbuilt => ⟨?_, hbuilt.shows.foldl requests⟩⟩
  rw [graph_foldl_serve]
  exact Batch.accounts_after hbuilt.origin _

/-- An edge is added and deleted again, and a wildcard is refused. -/
def cancelled : List Op := [.add ⟨0, 1, ⟨2⟩⟩, .delete ⟨0, 1, ⟨2⟩⟩, .add ⟨0, 1, .any⟩]

/-- The edits that cancel leave two lists to replace, and nothing to add or to delete. -/
theorem accounting_exact_cancelled :
    Graph.Origin .empty ∧ Built (.empty true) {} ∧
    (cancelled.foldl Graph.step .empty).hasPending = true ∧
    (cancelled.foldl Graph.step .empty).commit.2 = ⟨2, 0, 0⟩ ∧
    (((cancelled ++ [Op.commit]).map Request.change).foldl serve (.empty true)).Shows
      ⟨1, 1, 1, 2⟩ := by
  obtain ⟨haccounts, hcounters⟩ := accounting_exact
  -- the graphs in between, by name
  have hadd := Graph.add_of_absent (g := .empty) (e := ⟨0, 1, ⟨2⟩⟩) (by decide) (by simp)
  generalize hg₁ : Graph.empty.stageAdd ⟨0, 1, ⟨2⟩⟩ = g₁ at hadd
  have hpresent : g₁.Has .merged ⟨0, 1, ⟨2⟩⟩ := by simp [← hg₁, Graph.has_stageAdd]
  have hdelete := Graph.delete_of_present (by decide) hpresent
  generalize g₁.stageDelete ⟨0, 1, ⟨2⟩⟩ = g₂ at hdelete
  have hrefused : g₂.add ⟨0, 1, .any⟩ = .error .wildcardEdge := rfl
  have hrun : cancelled.foldl Graph.step .empty = g₂ := by
    simp [cancelled, Graph.step, hadd, hdelete, hrefused]
  have hbatch : Batch.after {} .empty cancelled = ⟨[⟨0, 1, ⟨2⟩⟩], [⟨0, 1, ⟨2⟩⟩]⟩ := by
    simp [cancelled, Batch.after, Batch.next, Graph.step, tookEffect, hadd, hdelete, hrefused]
  have hmerged : (cancelled.foldl Graph.step .empty).edgeSet .merged = ∅ :=
    (Graph.edits_run .empty (by decide)).1
  have hpermanent : (cancelled.foldl Graph.step .empty).edgeSet .permanent = ∅ :=
    Graph.edgeSet_permanent_of_edits .empty (by decide)
  have h := haccounts .empty cancelled .empty
  have hpending := h.pending_iff.mpr (by simp [hbatch, Batch.edges])
  have hcommitted : (cancelled.foldl Graph.step .empty).commit.2 = ⟨2, 0, 0⟩ := by
    rw [h.committed, hmerged, hpermanent, hbatch]
    rfl
  refine ⟨.empty, .empty, hpending, hcommitted, ?_⟩
  rw [hrun] at hpending hcommitted
  have htotals : Totals.after {} (.empty true) ((cancelled ++ [Op.commit]).map Request.change) =
      ⟨1, 1, 1, 2⟩ := by
    simp [cancelled, Totals.after, Totals.next, Totals.commit, serve, empty, CountedGraph.add,
      CountedGraph.delete, count, Except.map, tookEffect, snd_commit, hadd, hdelete, hrefused,
      hpending, hcommitted]
  rw [← htotals]
  exact (hcounters (.empty true) {} _ .empty).2

end CountedGraph
end DeltaMatch
