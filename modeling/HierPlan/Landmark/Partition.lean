import HierPlan.Landmark.Engine
import HierPlan.Scale

/-!
# Landmark/Partition — sharing unit costs among landmarks

A fact is achieved by one of the operators that add it, a compound task by one of its methods; an
operator or a method stands for itself.  Every achiever spreads one unit evenly over the landmarks
it can achieve, and a landmark costs what its cheapest achiever gives it.  A landmark without
achievers costs nothing.
-/

namespace HierPlan

variable {α : Type} [Scale α]

/-- The nodes one of which has to be used for a landmark, each once and in order. -/
def AndOrGraph.achievers (g : AndOrGraph) (id : Nat) : List Nat :=
  match g.node? id with
  | none => []
  | some n =>
    match n.kind with
    | .fact | .compound => (IdSet.ofList g.size n.predecessors).toList
    | _ => [id]

/-- In how many lists `u` stands. -/
def appearances (groups : List (List Nat)) (u : Nat) : Nat :=
  (groups.filter fun group => group.contains u).length

/-- What the cheapest of some achievers gives. -/
def groupCost (groups : List (List Nat)) (group : List Nat) : α :=
  let share := fun u => Scale.div (Scale.ofNat 1) (Scale.ofNat (appearances groups u) : α)
  (Scale.least? (group.map share)).getD (Scale.ofNat 0)

/-- The cost of each landmark, by id; other ids cost nothing. -/
def partitionCosts (g : AndOrGraph) (size : Nat) (landmarks : IdSet) : Array α :=
  let groups := landmarks.toList.map g.achievers
  (Array.range size).map fun id =>
    if landmarks.contains id then groupCost groups (g.achievers id) else Scale.ofNat 0

/-- The cost of an id; ids past the table cost nothing. -/
def costOf (costs : Array α) (id : Nat) : α := costs[id]?.getD (Scale.ofNat 0)

/-- What some ids cost together, added in order. -/
def totalCost (costs : Array α) (ids : List Nat) : α := Scale.sum (ids.map (costOf costs))

/-- The costs of landmarks in an engine. -/
def LandmarkEngine.partition (e : LandmarkEngine) (landmarks : IdSet) :
    Except LandmarkError (Array α) := do
  let t ← e.held
  return partitionCosts t.graph e.size landmarks

end HierPlan
