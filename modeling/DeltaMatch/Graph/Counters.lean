import DeltaMatch.Graph.Snapshot

/-! Counted graphs: a graph together with counters of the operations that had an
effect. The counters are optional and never influence the graph. -/
namespace DeltaMatch

/-- Lookups of neighbour lists, by view. -/
structure Lookups where
  permanent : Nat := 0
  merged : Nat := 0
  deriving DecidableEq

namespace Lookups

/-- Counts one more lookup. Logs are never looked up. -/
def record (l : Lookups) : View → Lookups
  | .permanent => { l with permanent := l.permanent + 1 }
  | .merged => { l with merged := l.merged + 1 }
  | .diffPlus | .diffMinus => l

/-- Sums two counts. -/
def plus (a b : Lookups) : Lookups := ⟨a.permanent + b.permanent, a.merged + b.merged⟩

end Lookups

/-- Counters of effective operations. -/
structure Counters where
  /-- Additions that changed the merged view. -/
  edgesAdded : Nat := 0
  /-- Deletions that changed the merged view. -/
  edgesDeleted : Nat := 0
  /-- Commits that found something pending. -/
  commits : Nat := 0
  /-- Pending lists folded by commits. -/
  listsCommitted : Nat := 0
  lookups : Lookups := {}
  deriving DecidableEq

/-- A graph and, when it is counted, its counters. -/
structure CountedGraph where
  graph : Graph
  counters : Option Counters

namespace CountedGraph

/-- The graph without vertices and without a history. -/
def empty (counted : Bool) : CountedGraph := ⟨.empty, if counted then some {} else none⟩

/-- Changes the counters, if there are any. -/
def count (c : CountedGraph) (change : Counters → Counters) : CountedGraph :=
  { c with counters := c.counters.map change }

/-- The counters, all zero for a graph that is not counted. -/
def tally (c : CountedGraph) : Counters := c.counters.getD {}

/-- Adds an edge. -/
def add (c : CountedGraph) (e : Edge) : Except GraphError (CountedGraph × Bool) :=
  let ⟨graph, counters⟩ := c
  (graph.add e).map fun (g, added) =>
    (if added then (mk g counters).count fun k => { k with edgesAdded := k.edgesAdded + 1 }
      else ⟨g, counters⟩, added)

/-- Deletes an edge. -/
def delete (c : CountedGraph) (e : Edge) : Except GraphError (CountedGraph × Bool) :=
  let ⟨graph, counters⟩ := c
  (graph.delete e).map fun (g, deleted) =>
    (if deleted then (mk g counters).count fun k => { k with edgesDeleted := k.edgesDeleted + 1 }
      else ⟨g, counters⟩, deleted)

/-- Commits the pending batch. A commit with nothing pending is not counted. -/
def commit (c : CountedGraph) : CountedGraph × CommitStats :=
  let (g, stats) := c.graph.commit
  if c.graph.hasPending then
    ({ c with graph := g }.count fun k =>
      { k with commits := k.commits + 1
               listsCommitted := k.listsCommitted + stats.listsReplaced }, stats)
  else (c, stats)

/-- Drops the pending batch, which is not counted. -/
def discard (c : CountedGraph) : CountedGraph × Nat :=
  let (g, dropped) := c.graph.discard
  ({ c with graph := g }, dropped)

/-- Gives a vertex a label, which is not counted. -/
def setVertexLabel (c : CountedGraph) (v : VertexId) (l : Label) :
    Except GraphError CountedGraph :=
  (c.graph.setVertexLabel v l).map fun g => { c with graph := g }

/-- Looks up the neighbour list of a vertex; a failed lookup is not counted. -/
def neighbours (c : CountedGraph) (v : VertexId) (d : Direction) (view : View) :
    Except GraphError (CountedGraph × NeighbourList) :=
  (c.graph.neighbours v d view).map fun list =>
    (c.count fun k => { k with lookups := k.lookups.record view }, list)

/-- Adds the lookups made elsewhere on this graph. -/
def recordLookups (c : CountedGraph) (l : Lookups) : CountedGraph :=
  c.count fun k => { k with lookups := k.lookups.plus l }

/-- Loads a graph, counting each edge added on the way and the closing commit. -/
def load (counted : Bool) (vertexCount : Nat) (edges : List Edge) :
    Except GraphError CountedGraph :=
  match Graph.stageLoad vertexCount edges with
  | .error err => .error err
  | .ok g =>
    let staged := { empty counted with graph := g }
    .ok (staged.count fun k => { k with edgesAdded := g.diffPlus.size }).commit.1

/-- Restores a snapshot. -/
def restore (counted : Bool) (s : Snapshot) : Except GraphError CountedGraph :=
  match load counted s.vertexCount s.edges with
  | .error err => .error err
  | .ok c => (c.graph.restoreLabels 0 s.vertexLabels).map fun g => { c with graph := g }

end CountedGraph
end DeltaMatch
