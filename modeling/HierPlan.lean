import HierPlan.IdSet
import HierPlan.IdSet.Words
import HierPlan.IdSet.Script
import HierPlan.Model.Basic
import HierPlan.Model.Error
import HierPlan.Model.Draft
import HierPlan.Model.Document
import HierPlan.Json.Value
import HierPlan.Json.Reader
import HierPlan.Json.Writer
import HierPlan.Word
import HierPlan.Json.Record
import HierPlan.Model.Interchange
import HierPlan.Graph.Basic
import HierPlan.Graph.View
import HierPlan.Graph.Worklist
import HierPlan.Landmark.Table
import HierPlan.Landmark.Engine
import HierPlan.Scale
import HierPlan.Landmark.Partition
import HierPlan.Cost.Capped
import HierPlan.Cost.Decomposition
import HierPlan.Queue.Heap
import HierPlan.Cost.Relaxed
import HierPlan.Landmark.Cut
import HierPlan.Progression
import HierPlan.Heuristic.Statistics
import HierPlan.Heuristic.LandmarkCount
import HierPlan.Config
import HierPlan.Heuristic.Basic
import HierPlan.Queue.Line
import HierPlan.Search.Node
import HierPlan.Search.Frontier
import HierPlan.Search.Novelty
import HierPlan.Search.Budget
import HierPlan.Search.Result
import HierPlan.Search.Run
import HierPlan.Planner
import HierPlan.Double.Parts
import HierPlan.Double.Shortest
import HierPlan.Double.Text
import HierPlan.Json.Double
import HierPlan.Nanoseconds
import HierPlan.Config.Interchange
import HierPlan.Search.Record
import HierPlan.CommandLine.Arguments
import HierPlan.Text.Letter
import HierPlan.Text.Blank
import HierPlan.CommandLine.Pattern
import HierPlan.CommandLine.LogFilter
import HierPlan.CommandLine.Session
import HierPlan.Search.Resident
import HierPlan.Main
import HierPlan.Graph.Derivation
import HierPlan.Cost.Grounded
import HierPlan.Graph.LeastWeight
import HierPlan.Cost.Worklist
import HierPlan.Execution
import HierPlan.Path
import HierPlan.Proofs.Model.WellFormed
import HierPlan.Proofs.Graph.Arcs
import HierPlan.Proofs.Graph.Incoming
import HierPlan.Proofs.Graph.Closure
import HierPlan.Proofs.Graph.Worklist
import HierPlan.Proofs.Landmark.Table
import HierPlan.Proofs.Landmark.Worklist
import HierPlan.Proofs.Landmark.Fixpoint
import HierPlan.Proofs.Cost.Decomposition
import HierPlan.Proofs.Queue.Heap
import HierPlan.Proofs.Cost.Relaxed
import HierPlan.Proofs.Cost.Pass
import HierPlan.Proofs.Landmark.Question
import HierPlan.Proofs.Landmark.WalkBack
import HierPlan.Proofs.Search.Loop
import HierPlan.Proofs.Search.Arena
import HierPlan.Proofs.Search.Soundness
import HierPlan.Proofs.Search.Coverage
import HierPlan.Proofs.Landmark.Rounds
import HierPlan.Proofs.Landmark.Bound
import HierPlan.Proofs.Heuristic.LandmarkCount
import HierPlan.Proofs.Heuristic.Safe
import HierPlan.Proofs.Search.Completeness
import HierPlan.Proofs.Double.Finite
import HierPlan.Proofs.Search.Ranking
import HierPlan.Proofs.Exact
import HierPlan.Proofs.Search.Optimality
import HierPlan.Proofs.Graph.Passage
import HierPlan.Proofs.Landmark.Necessary
import HierPlan.Proofs.Heuristic.Marks
import HierPlan.Proofs.Search.Waiting
import HierPlan.Proofs.Search.Marking
import HierPlan.Proofs.Heuristic.Partition
import HierPlan.Proofs.Search.Termination
import HierPlan.Proofs.Model.TopTask
import HierPlan.Proofs.Cost.Derived
import HierPlan.Proofs.Landmark.Reachable
import HierPlan.Proofs.Model.Validity
import HierPlan.Proofs.Graph.Range
import HierPlan.Proofs.Landmark.Range
import HierPlan.Proofs.Cost.Range
import HierPlan.Proofs.Search.Range
import HierPlan.Proofs.Search.Alike
import HierPlan.Proofs.Search.Limits
import HierPlan.Proofs.Heuristic.Release
import HierPlan.Proofs.Search.Repeat
import HierPlan.Proofs.Search.Account
import HierPlan.Proofs.IdSet.Bit
import HierPlan.Proofs.IdSet.Cursor
import HierPlan.Proofs.IdSet.Script
import HierPlan.Proofs.IdSet.Layout
import HierPlan.Proofs.IdSet.Query
import HierPlan.Proofs.IdSet.Subset
import HierPlan.Proofs.Cost.LeastCost
import HierPlan.Proofs.Cost.Worklist
import HierPlan.Proofs.Cost.Consistency
import HierPlan.Proofs.Cost.MaxCost
import HierPlan.Proofs.Landmark.Pricing
import HierPlan.Proofs.Cost.Affordable
import HierPlan.Proofs.Landmark.Admissible
import HierPlan.Proofs.Landmark.Cut
import HierPlan.Proofs.Landmark.Value
import HierPlan.Proofs.Landmark.Dominance
import HierPlan.Landmark.Gathering
import HierPlan.Proofs.Landmark.Closure
import HierPlan.Proofs.Search.Levels
import HierPlan.Proofs.Double.Order
import HierPlan.Proofs.Search.Serving
import HierPlan.Proofs.Model.Naming
import HierPlan.Proofs.Search.Lineage
import HierPlan.Proofs.Search.Novelty
import HierPlan.Graph.Drawing
import HierPlan.Proofs.Graph.Drawing
import HierPlan.Proofs.Graph.Shape
