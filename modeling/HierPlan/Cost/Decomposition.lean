import HierPlan.Cost.Capped
import HierPlan.Graph.View

/-!
# Cost/Decomposition — what it takes to decompose a task

Every node of a graph costs what its cheapest derivation weighs: a given node nothing, a node that
needs any predecessor the least of their costs, a node that needs all of them its own weight and
their sum, repeated subtasks counted repeatedly.  Costs start at the cap and only fall;
`DecompositionCosts.sweep` lowers every node once, in order of id, and the table is complete when a
sweep lowers nothing.  Each lowering takes at least one off a sum that starts at `n · costCap`, so
the recursion of methods is no obstacle.
-/

namespace HierPlan

/-- A cost per slot. -/
abbrev DecompositionCosts := Array Nat

namespace DecompositionCosts

/-- The cost of a slot; past the table nothing can be had. -/
def cost (t : DecompositionCosts) (id : Nat) : Nat := t[id]?.getD costCap

/-- What the predecessors of a node say about its cost. -/
def evaluate (t : DecompositionCosts) (n : GraphNode) : Nat :=
  match n.rule with
  | .given => 0
  | .any => (n.predecessors.map t.cost).foldl min costCap
  | .all => (cappedTotal? n.weight (n.predecessors.map t.cost)).getD costCap

/-- Lowers one node; says whether anything changed. -/
def revise (t : DecompositionCosts) (g : AndOrGraph) (id : Nat) : DecompositionCosts × Bool :=
  match g.node? id with
  | none => (t, false)
  | some n =>
    let next := t.evaluate n
    if next < t.cost id then (t.setIfInBounds id next, true) else (t, false)

/-- Lowers every node once, in order; says whether anything changed. -/
def sweep (t : DecompositionCosts) (g : AndOrGraph) : DecompositionCosts × Bool :=
  g.ids.foldl
    (fun (t, changed) id =>
      let (t, now) := t.revise g id
      (t, changed || now))
    (t, false)

/-- Sweeps until nothing changes, but at most `fuel` times. -/
def settle (g : AndOrGraph) : (fuel : Nat) → DecompositionCosts → DecompositionCosts
  | 0, t => t
  | fuel + 1, t =>
    let (next, changed) := t.sweep g
    if changed then settle g fuel next else next

end DecompositionCosts

/-- The cost of every node of a graph. -/
def AndOrGraph.decompositionCosts (g : AndOrGraph) : DecompositionCosts :=
  DecompositionCosts.settle g (g.size * costCap + 1) (Array.replicate g.size costCap)

namespace DecompositionCosts

/-- The costs of a problem's components. -/
def ofModel (m : Model) (weighting : Weighting) : DecompositionCosts :=
  ((View.decomposition weighting).graph m).decompositionCosts

/-- What a network takes; none if one of its tasks cannot be decomposed. -/
def network? (t : DecompositionCosts) (m : Model) (network : List Task) : Option Nat :=
  cappedTotal? 0 (network.map fun task => t.cost (m.taskId task))

end DecompositionCosts

end HierPlan
