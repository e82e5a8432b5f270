import HierPlan.Cost.Relaxed
import HierPlan.Graph.Derivation

/-!
# Cost/Grounded — the graph that a relaxed goal is priced in

`RelaxedCosts.compute` reads a composition graph together with a state, weights and the nodes its goal
depends on.  `RelaxedGoal.grounded` puts all of this into one graph: facts of the state are given, the
goal depends on what is wanted, and every node has the weight in use.  The relaxed max-cost of a node
is then the least weight of its derivations, weighed along the heaviest branch.
-/

namespace HierPlan

namespace RelaxedGoal

/-- A node as it counts for a state, with the weights in use. -/
def groundedNode (q : RelaxedGoal) (weights : Array Nat) (state : IdSet) (id : Nat)
    (n : GraphNode) : GraphNode :=
  { n with
    weight := if id = q.goal then 0 else weights[id]?.getD 0
    rule :=
      if id = q.goal then .all
      else if n.kind = .fact ∧ id ∈ state then .given
      else n.rule
    predecessors := if id = q.goal then q.wanted else n.predecessors }

/-- The graph with the state, the weights and the wanted nodes put in. -/
def grounded (q : RelaxedGoal) (weights : Array Nat) (state : IdSet) : AndOrGraph :=
  ⟨q.graph.slots.mapIdx fun id slot => slot.map (q.groundedNode weights state id)⟩

/-- **A slot of the grounded graph holds the node of the graph as it counts for the state.** -/
theorem node?_grounded {q : RelaxedGoal} {weights : Array Nat} {state : IdSet} {id : Nat} :
    (q.grounded weights state).node? id =
      (q.graph.node? id).map (q.groundedNode weights state id) := by
  simp only [AndOrGraph.node?, grounded, Array.getElem?_mapIdx]
  cases q.graph.slots[id]? <;> rfl

/-- `cost` is the relaxed max-cost of a node: some derivation weighs that much along its heaviest
branch, and none weighs less. -/
def IsMaxCost (q : RelaxedGoal) (weights : Array Nat) (state : IdSet) (id cost : Nat) : Prop :=
  (q.grounded weights state).Forest max [id] cost ∧
    ∀ w, (q.grounded weights state).Forest max [id] w → cost ≤ w

/-- A node has at most one relaxed max-cost. -/
theorem IsMaxCost.unique {q : RelaxedGoal} {weights : Array Nat} {state : IdSet} {id a b : Nat}
    (ha : q.IsMaxCost weights state id a) (hb : q.IsMaxCost weights state id b) : a = b :=
  Nat.le_antisymm (ha.2 _ hb.1) (hb.2 _ ha.1)

end RelaxedGoal

end HierPlan
