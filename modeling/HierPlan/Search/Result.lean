import HierPlan.Heuristic.Statistics
import HierPlan.Progression
import HierPlan.Search.Budget

/-!
# Search/Result — what a search reports
-/

namespace HierPlan

/-- The record of a finished search. -/
structure Result (α : Type) where
  status : Status
  /-- Nodes expanded; a goal node is not. -/
  expanded : Nat
  /-- Nodes that entered the frontier after the root. -/
  generated : Nat
  /-- Nodes dropped because their key was met before. -/
  pruned : Nat
  /-- Nanoseconds. -/
  elapsed : Nat
  /-- The length of the plan. -/
  solutionSize : Nat
  /-- Positions of the operators in order; empty unless a goal was reached. -/
  plan : List Nat
  planCost : Nat
  /-- The estimate of the root; none for a dead end. -/
  initial : Option α
  /-- The name of the heuristic. -/
  heuristic : String
  statistics : Statistics α

/-- Whether a plan was found. -/
def Result.isGoal {α : Type} (r : Result α) : Bool := r.status == .goal

/-- What an onlooker of a search sees. -/
inductive Event (α : Type) where
  /-- A node is expanded; `tasks` are left to do. -/
  | expand (sequence g : Nat) (h : α) (depth tasks : Nat)
  /-- A node enters the frontier. -/
  | generate (sequence g : Nat) (h f : α) (transition : Transition)
  /-- A node is dropped because its key was met before. -/
  | prune (g depth : Nat) (transition : Transition)
  /-- The search is over. -/
  | finish (status : Status)

end HierPlan
