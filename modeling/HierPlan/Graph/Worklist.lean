import HierPlan.Graph.Basic

/-!
# Graph/Worklist — revising the nodes of a graph one at a time

    queue ──front──▸ id ──changed?──▸ the nodes that id feeds ──back──▸ queue

A table over a graph is revised node by node, from a queue.  The node in front is revised, and where that changes the
table, the nodes it feeds go to the back, unless they wait already.  `Worklist.run` takes nodes off the front until
none is left.  What the table holds, how a node is revised and which nodes wait at first is left open.
-/

namespace HierPlan

/-- A table on its way and the nodes that wait to be revised. -/
structure Worklist (T : Type) where
  table : T
  /-- The nodes that wait, longest waiting first. -/
  queue : List Nat
  /-- The same nodes, for looking them up. -/
  queued : IdSet

namespace Worklist

variable {T : Type}

/-- A table with some nodes waiting. -/
def ofIds (g : AndOrGraph) (table : T) (ids : List Nat) : Worklist T where
  table
  queue := ids
  queued := .ofList g.size ids

/-- Puts a node at the back, unless it waits already. -/
def enqueue (w : Worklist T) (id : Nat) : Worklist T :=
  if w.queued.contains id then w
  else { w with queue := w.queue ++ [id], queued := w.queued.insert id }

/-- What a node feeds; nothing, if its slot is empty. -/
def fed (g : AndOrGraph) (id : Nat) : List Nat := ((g.node? id).map (·.successors)).getD []

variable (revise : T → AndOrGraph → Nat → T × Bool) (g : AndOrGraph)

/-- Revises a node that was taken off the front. -/
def visit (w : Worklist T) (id : Nat) : Worklist T :=
  let (table, changed) := revise w.table g id
  if changed then (fed g id).foldl enqueue { w with table } else w

/-- The work that is left when the node in front is taken off. -/
def popped (w : Worklist T) (id : Nat) (rest : List Nat) : Worklist T :=
  { w with queue := rest, queued := w.queued.erase id }

/-- Takes nodes off the front until none waits, but at most `turns` of them. -/
def run : (turns : Nat) → Worklist T → Worklist T
  | 0, w => w
  | turns + 1, w =>
    match w.queue with
    | [] => w
    | id :: rest => run turns ((w.popped id rest).visit revise g id)

end Worklist

/-- How many nodes are taken off at most: each once, and the target of each arc once more for all that can be taken
off its source, which is no more than `most`. -/
def AndOrGraph.turnBound (g : AndOrGraph) (most : Nat) : Nat :=
  (List.range g.size).foldl (fun turns id => turns + most * (Worklist.fed g id).length) g.size

end HierPlan
