import Daliuge.Common.Posting
import Daliuge.Common.Streams
import Daliuge.Common.Uncompressed
import Daliuge.Engine.Absorbing
import Daliuge.Engine.App
import Daliuge.Engine.Barrier
import Daliuge.Engine.Blocking
import Daliuge.Engine.Completion
import Daliuge.Engine.DepthFirst
import Daliuge.Engine.Drop
import Daliuge.Engine.Firing
import Daliuge.Engine.Loading
import Daliuge.Engine.Outcome
import Daliuge.Engine.Reading
import Daliuge.Engine.Refusals
import Daliuge.Engine.Relationships
import Daliuge.Engine.Roots
import Daliuge.Engine.Settling
import Daliuge.Engine.States
import Daliuge.Engine.Symmetry
import Daliuge.Lib.Adjacency
import Daliuge.Lib.Association
import Daliuge.Lib.Cascade
import Daliuge.Lib.Collect
import Daliuge.Lib.Enumeration
import Daliuge.Lib.Exchange
import Daliuge.Lib.FirstSeen
import Daliuge.Lib.Flow
import Daliuge.Lib.Kahn
import Daliuge.Lib.Reader
import Daliuge.Lib.Run
import Daliuge.Lib.Separated
import Daliuge.Lib.Stepwise
import Daliuge.Lib.Subdivision
import Daliuge.Lib.Terms
import Daliuge.Lib.Text
import Daliuge.Lib.Traversal
import Daliuge.Lifecycle.Losses
import Daliuge.Lifecycle.Registry
import Daliuge.Manager.Building
import Daliuge.Manager.Calls
import Daliuge.Manager.Composite
import Daliuge.Manager.Cutting
import Daliuge.Manager.Leaves
import Daliuge.Manager.Links
import Daliuge.Manager.Sessions
import Daliuge.Manager.Specs
import Daliuge.Manager.Splitting
import Daliuge.Manager.Subscriptions
import Daliuge.Partition.Antichains
import Daliuge.Partition.Capacity
import Daliuge.Partition.Dense
import Daliuge.Partition.Digraph
import Daliuge.Partition.Drops
import Daliuge.Partition.Grouping
import Daliuge.Partition.Incremental
import Daliuge.Partition.Lanes
import Daliuge.Partition.Linearise
import Daliuge.Partition.Longest
import Daliuge.Partition.Merging
import Daliuge.Partition.Metis
import Daliuge.Partition.MetisParts
import Daliuge.Partition.Paths
import Daliuge.Partition.Placing
import Daliuge.Partition.Rebuild
import Daliuge.Partition.Reduce
import Daliuge.Partition.Sarkar
import Daliuge.Partition.Scheduled
import Daliuge.Partition.Sequential
import Daliuge.Partition.Swarm
import Daliuge.Partition.Viewing
import Daliuge.Prepare.Active
import Daliuge.Prepare.Config
import Daliuge.Prepare.Constructs
import Daliuge.Prepare.Globals
import Daliuge.Prepare.Graph
import Daliuge.Prepare.Nodes
import Daliuge.Prepare.Requested
import Daliuge.Prepare.Subgraphs
import Daliuge.Repro.Blockdag
import Daliuge.Repro.Blocks
import Daliuge.Repro.Compare
import Daliuge.Repro.Compression
import Daliuge.Repro.Fields
import Daliuge.Repro.Modes
import Daliuge.Repro.Passes
import Daliuge.Repro.Presentation
import Daliuge.Repro.Scheme
import Daliuge.Repro.Sensitivity
import Daliuge.Repro.Siblings
import Daliuge.Unroll.Admission
import Daliuge.Unroll.BothEnds
import Daliuge.Unroll.Closed
import Daliuge.Unroll.Drop
import Daliuge.Unroll.Edges
import Daliuge.Unroll.Ends
import Daliuge.Unroll.Graph
import Daliuge.Unroll.GroupKeys
import Daliuge.Unroll.GroupQueue
import Daliuge.Unroll.Hierarchy
import Daliuge.Unroll.InputOrder
import Daliuge.Unroll.Instantiate
import Daliuge.Unroll.Layout
import Daliuge.Unroll.LeafEdges
import Daliuge.Unroll.Ledger
import Daliuge.Unroll.LinkOrder
import Daliuge.Unroll.Locking
import Daliuge.Unroll.LoopEdges
import Daliuge.Unroll.LostKeys
import Daliuge.Unroll.Node
import Daliuge.Unroll.Oids
import Daliuge.Unroll.Plan
import Daliuge.Unroll.Regrouping
import Daliuge.Unroll.Repeats
import Daliuge.Unroll.Sequencing
import Daliuge.Unroll.Wire
import Daliuge.Unroll.WriteOrder
