import DeltaMatch.Main
import DeltaMatch.NeighbourList.Reserved
import DeltaMatch.StandingQueries
import DeltaMatch.Proofs.Results
import DeltaMatch.Proofs.NeighbourList.Search
import DeltaMatch.Proofs.NeighbourList.Columns
import DeltaMatch.Proofs.NeighbourList.Queries
import DeltaMatch.Proofs.Text
import DeltaMatch.Proofs.Text.Encoding
import DeltaMatch.Proofs.Text.Delimited
import DeltaMatch.Proofs.EditLog
import DeltaMatch.Proofs.EditLog.History
import DeltaMatch.Proofs.Graph.Cursor
import DeltaMatch.Proofs.Graph.LayeredLists
import DeltaMatch.Proofs.Graph.Membership
import DeltaMatch.Proofs.Graph.Invariant
import DeltaMatch.Proofs.Graph.Reachable
import DeltaMatch.Proofs.Graph.Relation
import DeltaMatch.Proofs.Graph.ViewEdges
import DeltaMatch.Proofs.Plan.Validity
import DeltaMatch.Proofs.Join.Candidates
import DeltaMatch.Proofs.Join.Matches
import DeltaMatch.Proofs.Join.Transcript
import DeltaMatch.Proofs.Sink
import DeltaMatch.Proofs.Join.Delivery
import DeltaMatch.Proofs.Pattern.Ordering
import DeltaMatch.Proofs.Pattern.Placement
import DeltaMatch.Proofs.Pattern.Connectivity
import DeltaMatch.Proofs.Pattern.Meaning
import DeltaMatch.Proofs.Pattern.Acceptance
import DeltaMatch.Proofs.Delta.Netting
import DeltaMatch.Proofs.Delta.Terms
import DeltaMatch.Proofs.Delta.Exactness
import DeltaMatch.Proofs.Delta.Replay
import DeltaMatch.Proofs.StandingQueries.Apply
import DeltaMatch.Proofs.StandingQueries.Tracking
import DeltaMatch.Proofs.Graph.Pending
import DeltaMatch.Proofs.Graph.EditOrder
import DeltaMatch.Proofs.Graph.Likeness
import DeltaMatch.Proofs.Join.Reads
import DeltaMatch.Proofs.Observation
import DeltaMatch.Proofs.Isolation
import DeltaMatch.Proofs.Graph.EdgeSet
import DeltaMatch.Proofs.CommitEquivalence
import DeltaMatch.Proofs.Join.Totals
import DeltaMatch.Proofs.Join.Batching
import DeltaMatch.Proofs.Join.Safety
import DeltaMatch.Proofs.Join.Rejection
import DeltaMatch.Proofs.Join.EmissionOrder
import DeltaMatch.Proofs.Join.Intersections
import DeltaMatch.Proofs.Join.Work
import DeltaMatch.Proofs.StandingQueries.Delivery
import DeltaMatch.Proofs.Graph.VertexLabels
import DeltaMatch.Proofs.Snapshot
import DeltaMatch.Proofs.Json.Tokens
import DeltaMatch.Proofs.Json.RoundTrip
import DeltaMatch.Proofs.Json.Records
import DeltaMatch.Proofs.Graph.SnapshotText
import DeltaMatch.Proofs.Plan.PlanText
import DeltaMatch.Proofs.Command.Directory
import DeltaMatch.Proofs.Command.Reading
import DeltaMatch.Proofs.Command.Matches
import DeltaMatch.Proofs.Command.Printing
import DeltaMatch.Proofs.Command.DeltaCommit
import DeltaMatch.Proofs.Command.Options
import DeltaMatch.Proofs.Command.EditOrder
import DeltaMatch.Proofs.Pattern.Names
import DeltaMatch.Proofs.Pattern.Specifications
import DeltaMatch.Proofs.Pattern.GreedyOrder
import DeltaMatch.Proofs.Pattern.Layout
import DeltaMatch.Proofs.Random.Drawing
import DeltaMatch.Proofs.Random.EdgeList
import DeltaMatch.Proofs.EdgeTable
import DeltaMatch.Proofs.EdgeTable.RoundTrip
import DeltaMatch.Proofs.Command.Import
import DeltaMatch.Proofs.Graph.Accounting
import DeltaMatch.Proofs.Graph.Counters
