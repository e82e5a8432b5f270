import HierPlan.Cost.Capped
import HierPlan.Graph.View
import HierPlan.Queue.Heap

/-!
# Cost/Relaxed — the relaxed max-cost of a goal

In a composition graph the facts of a state cost nothing, a node that needs any predecessor costs the
least of theirs, and one that needs all of them its weight on top of the greatest.
`RelaxedCosts.compute` finds all costs in one pass over a queue of (cost, id) pairs, cheapest first,
in the manner of a shortest-path search: a node that needs all its predecessors is priced when the
last of them leaves the queue, and that predecessor is its *supporter*.

The goal node depends on whatever is asked for, not on arcs of the graph; `RelaxedGoal` lists that.
-/

namespace HierPlan

/-- A composition graph and what is asked of its goal node. -/
structure RelaxedGoal where
  graph : AndOrGraph
  /-- The goal node. -/
  goal : Nat
  /-- The nodes the goal depends on, one entry per occurrence. -/
  wanted : List Nat

namespace RelaxedGoal

/-- Whether a node needs all its predecessors. -/
def needsAll (q : RelaxedGoal) (id : Nat) : Bool :=
  id == q.goal || (q.graph.node? id).any fun n => n.rule == .all

/-- The goal needs all that is wanted. -/
theorem needsAll_goal (q : RelaxedGoal) : q.needsAll q.goal = true := by
  rw [needsAll, beq_self_eq_true, Bool.true_or]

/-- The arcs out of a node: those of the graph, then one to the goal per occurrence. -/
def targets (q : RelaxedGoal) (id : Nat) : List Nat :=
  ((q.graph.node? id).map (·.successors)).getD [] ++
    List.replicate (q.wanted.count id) q.goal

/-- How many predecessors a node waits for. -/
def waits (q : RelaxedGoal) (id : Nat) : Nat :=
  if id = q.goal then q.wanted.length
  else
    match q.graph.node? id with
    | some n => if n.rule = .all then n.predecessors.length else 0
    | none => 0

/-- A bound on how often anything enters the queue: once per arc and once more per node. -/
def queueBound (q : RelaxedGoal) : Nat :=
  (List.range q.graph.size).foldl (fun arcs id => arcs + (q.targets id).length) 0 +
    2 * q.graph.size + 1

end RelaxedGoal

/-- The queue puts cheaper nodes first, and of equally cheap ones the one with the smaller id. -/
def cheaper (a b : Nat × Nat) : Bool := a.1 < b.1 || (a.1 == b.1 && a.2 < b.2)

/-- The costs found so far. -/
structure RelaxedCosts where
  cost : Array Nat
  /-- The predecessor that priced a node that needs all of them. -/
  supporter : Array (Option Nat)
  /-- How many predecessors a node still waits for. -/
  waiting : Array Nat
  /-- The nodes whose cost is final. -/
  done : IdSet
  queue : Heap (Nat × Nat)

namespace RelaxedCosts

/-- The cost of a node. -/
def costOf (r : RelaxedCosts) (id : Nat) : Nat := r.cost[id]?.getD costCap

/-- The supporter of a node, if it has one. -/
def supporterOf (r : RelaxedCosts) (id : Nat) : Option Nat := (r.supporter[id]?).join

/-- Prices a node and puts it into the queue. -/
def price (r : RelaxedCosts) (id cost : Nat) : RelaxedCosts :=
  { r with
    cost := r.cost.setIfInBounds id cost
    queue := r.queue.push cheaper (cost, id) }

/-- Before the first node: what needs nothing is priced at its weight, and the facts of the state at
nothing. -/
def start (q : RelaxedGoal) (weights : Array Nat) (state : IdSet) : RelaxedCosts :=
  let n := q.graph.size
  let r : RelaxedCosts := {
    cost := Array.replicate n costCap
    supporter := Array.replicate n none
    waiting := (Array.range n).map q.waits
    done := .empty n
    queue := .empty }
  let sources := q.graph.ids.filter fun id => id != q.goal && q.needsAll id && q.waits id == 0
  let r := sources.foldl (fun r id => r.price id (weights[id]?.getD 0)) r
  let r := if q.wanted.isEmpty then r.price q.goal 0 else r
  (state.toList.filter fun f => q.graph.isKind f .fact).foldl (fun r f => r.price f 0) r

/-- Follows one arc out of a node whose cost `c` is final. -/
def relax (q : RelaxedGoal) (weights : Array Nat) (id c : Nat) (r : RelaxedCosts) (target : Nat) :
    RelaxedCosts :=
  if r.done.contains target then r
  else if q.needsAll target then
    let left := r.waiting[target]?.getD 0 - 1
    let r := { r with waiting := r.waiting.setIfInBounds target left }
    if left = 0 then
      let r := { r with supporter := r.supporter.setIfInBounds target (some id) }
      r.price target (cappedAdd (weights[target]?.getD 0) c)
    else r
  else if c < r.costOf target then r.price target c
  else r

/-- Takes nodes off the queue until it is empty, but at most `fuel` times.  An entry that is no
longer the cost of its node, or whose node is final, is dropped. -/
def drain (q : RelaxedGoal) (weights : Array Nat) : (fuel : Nat) → RelaxedCosts → RelaxedCosts
  | 0, r => r
  | fuel + 1, r =>
    match r.queue.pop? cheaper with
    | none => r
    | some ((c, id), queue) =>
      let r := { r with queue }
      if r.costOf id < c || r.done.contains id then drain q weights fuel r
      else
        let r := { r with done := r.done.insert id }
        drain q weights fuel ((q.targets id).foldl (relax q weights id c) r)

/-- All costs for a state, with the given weights in place of those of the graph. -/
def compute (q : RelaxedGoal) (weights : Array Nat) (state : IdSet) : RelaxedCosts :=
  drain q weights q.queueBound (start q weights state)

end RelaxedCosts

end HierPlan
