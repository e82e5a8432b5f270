import HierPlan.Cost.Relaxed

/-!
# Landmark/Cut — a lower bound from cuts

`LandmarkCut.compute` works in rounds.  A round prices every node (`RelaxedCosts.compute`), walks back
from the goal to the first operators that still weigh something (`cut`), charges the least of their
weights, and takes that much off each of them.  The rounds end when the goal costs nothing, or when
it cannot be reached.  Every round brings an operator down to nothing, so the number of operators
bounds the rounds.
-/

namespace HierPlan

/-- The composition graph of a problem. -/
structure LandmarkCut where
  graph : AndOrGraph
  /-- The goal node. -/
  goal : Nat

/-- The outcome of the rounds. -/
structure CutCosts where
  /-- What the cuts cost together; none if the goal cannot be reached. -/
  value : Option Nat
  /-- What each cut costs, in the order they were found. -/
  cuts : List Nat
  deriving DecidableEq

namespace LandmarkCut

/-- The composition graph of a problem. -/
def build (m : Model) : LandmarkCut := ⟨View.composition.graph m, View.goalId m⟩

/-- What each node weighs at first. -/
def weights (k : LandmarkCut) : Array Nat :=
  (Array.range k.graph.size).map fun id => ((k.graph.node? id).map (·.weight)).getD 0

/-- What the goal depends on: the goal facts and the tasks of a network. -/
def query (k : LandmarkCut) (m : Model) (network : List Task) : RelaxedGoal :=
  { graph := k.graph
    goal := k.goal
    wanted := m.goal.toList ++ network.map (View.taskNode m k.graph) }

/-- The relaxed max-cost of a network and the goal facts, if they can be reached. -/
def maxCost? (k : LandmarkCut) (m : Model) (state : IdSet) (network : List Task) : Option Nat :=
  let c := (RelaxedCosts.compute (k.query m network) k.weights state).costOf k.goal
  if c = costCap then none else some c

/-- Walks back from the nodes of a stack, last pushed first, along the arcs that carry their cost;
collects the operators that still weigh something.  At most `fuel` nodes are looked at. -/
def walkBack (q : RelaxedGoal) (weights : Array Nat) (r : RelaxedCosts) :
    (fuel : Nat) → (stack : List Nat) → (seen : IdSet) → (cut : List Nat) → List Nat
  | 0, _, _, cut => cut.reverse
  | _, [], _, cut => cut.reverse
  | fuel + 1, id :: stack, seen, cut =>
    if seen.contains id || r.costOf id == 0 then walkBack q weights r fuel stack (seen.insert id) cut
    else
      let seen := seen.insert id
      let push := fun (ids : List Nat) => ids.foldl (fun stack p => p :: stack) stack
      if id = q.goal then
        walkBack q weights r fuel (push ((r.supporterOf id).or q.wanted.head?).toList) seen cut
      else
        match q.graph.node? id with
        | none => walkBack q weights r fuel stack seen cut
        | some n =>
          match n.rule with
          | .given => walkBack q weights r fuel stack seen cut
          | .any =>
            let tight := n.predecessors.filter fun p => r.costOf p == r.costOf id
            walkBack q weights r fuel (push tight) seen cut
          | .all =>
            if 0 < weights[id]?.getD 0 then walkBack q weights r fuel stack seen (id :: cut)
            else walkBack q weights r fuel (push (r.supporterOf id).toList) seen cut

/-- The operators of one round. -/
def cut (q : RelaxedGoal) (weights : Array Nat) (r : RelaxedCosts) : List Nat :=
  walkBack q weights r q.queueBound [q.goal] (.empty q.graph.size) []

/-- Takes `amount` off the weight of each listed node. -/
def discount (weights : Array Nat) (ids : List Nat) (amount : Nat) : Array Nat :=
  ids.foldl (fun w id => w.modify id (· - amount)) weights

/-- Runs the rounds, at most `fuel` of them, after cuts that cost `total`. -/
def rounds (q : RelaxedGoal) (state : IdSet) :
    (fuel : Nat) → (weights : Array Nat) → (total : Nat) → (cuts : List Nat) → CutCosts
  | 0, _, total, cuts => ⟨some total, cuts.reverse⟩
  | fuel + 1, weights, total, cuts =>
    let r := RelaxedCosts.compute q weights state
    let c := r.costOf q.goal
    if c = costCap then ⟨none, cuts.reverse⟩
    else if c = 0 then ⟨some total, cuts.reverse⟩
    else
      let ops := cut q weights r
      match (ops.map fun id => weights[id]?.getD 0).min? with
      | none => ⟨some total, cuts.reverse⟩
      | some least =>
        rounds q state fuel (discount weights ops least) (cappedAdd total least) (least :: cuts)

/-- The cuts for a state and a network. -/
def compute (k : LandmarkCut) (m : Model) (state : IdSet) (network : List Task) : CutCosts :=
  rounds (k.query m network) state (m.operators.size + 1) k.weights 0 []

/-- Whether every task of a network has a node. -/
def covers (k : LandmarkCut) (m : Model) (network : List Task) : Bool :=
  network.all fun t => decide (View.taskNode m k.graph t < k.graph.size)

end LandmarkCut

end HierPlan
