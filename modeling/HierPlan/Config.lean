import HierPlan.Graph.View
import HierPlan.Heuristic.LandmarkCount

/-!
# Config — what a planner is asked to do

Search options, heuristic options, and the combinations that make no sense (`PlannerOptions.check`).
-/

namespace HierPlan

/-- Which node is expanded next. -/
inductive SearchKind where
  /-- The least cost so far plus estimate. -/
  | aStar
  /-- The least estimate. -/
  | greedyBestFirst
  /-- The oldest. -/
  | breadthFirst
  /-- The newest. -/
  | depthFirst
  deriving DecidableEq, Repr

/-- Whether the order looks at no estimate. -/
def SearchKind.isBlind : SearchKind → Bool
  | .breadthFirst | .depthFirst => true
  | _ => false

/-- What is done about situations met before. -/
inductive Revisit where
  /-- Nothing. -/
  | off
  /-- A node is dropped if its key was met before at no greater cost.  Situations that share a key
  count as one, so a plan can be lost. -/
  | hashedKey
  deriving DecidableEq, Repr

/-- How many expansions lie between two looks at the budget, unless said otherwise. -/
def defaultCheckInterval : Nat := 100

/-- How to search. -/
structure SearchOptions where
  kind : SearchKind := .aStar
  revisit : Revisit := .off
  /-- Nanoseconds. -/
  timeLimit : Option Nat := none
  /-- Bytes. -/
  memoryLimit : Option Nat := none
  checkInterval : Nat := defaultCheckInterval
  /-- Serve nodes with something new first. -/
  novelty : Bool := false
  deriving DecidableEq

/-- How nodes are estimated. -/
inductive HeuristicKind where
  /-- Always nothing. -/
  | blind
  /-- Landmarks not achieved yet. -/
  | landmarkCount
  /-- What it takes to decompose the network. -/
  | decomposition
  /-- Cuts of landmarks. -/
  | landmarkCut
  deriving DecidableEq, Repr

/-- How to estimate. -/
structure HeuristicOptions where
  kind : HeuristicKind := .landmarkCount
  landmarks : LandmarkOptions := {}
  weighting : Weighting := .unit
  deriving DecidableEq

/-- Everything a planner is asked to do. -/
structure PlannerOptions where
  search : SearchOptions := {}
  heuristic : HeuristicOptions := {}
  deriving DecidableEq

/-- Why options cannot be honoured. -/
inductive ConfigError where
  /-- The landmark tables cannot serve. -/
  | landmarks (cause : LandmarkError)
  /-- Costs are shared among landmarks only. -/
  | partitionWithoutLandmarks
  /-- Estimates decide the order already. -/
  | noveltyWithoutBlindSearch
  /-- The budget would be looked at never or always. -/
  | zeroCheckInterval
  deriving DecidableEq, Repr

/-- The cause in words. -/
def ConfigError.message : ConfigError → String
  | .landmarks cause => cause.message
  | .partitionWithoutLandmarks =>
    "uniform cost partitioning requires the landmark-count heuristic"
  | .noveltyWithoutBlindSearch =>
    "novelty pre-filter requires breadth-first or depth-first search"
  | .zeroCheckInterval => "budget check interval must be positive"

/-- Fails if the options of a heuristic do not fit together. -/
def HeuristicOptions.check (o : HeuristicOptions) : Except ConfigError Unit :=
  if o.landmarks.partition && o.kind != .landmarkCount then .error .partitionWithoutLandmarks
  else .ok ()

/-- Fails if the options do not fit together; the first fault in the order interval, novelty,
heuristic wins. -/
def PlannerOptions.check (o : PlannerOptions) : Except ConfigError Unit :=
  if o.search.checkInterval = 0 then .error .zeroCheckInterval
  else if o.search.novelty && !o.search.kind.isBlind then .error .noveltyWithoutBlindSearch
  else o.heuristic.check

end HierPlan
