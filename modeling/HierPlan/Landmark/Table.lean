import HierPlan.Graph.Worklist

/-!
# Landmark/Table — which nodes every derivation of a node passes through

An entry of a `LandmarkTable` is a set of nodes.  It starts full, that of a given node with the node alone, and
shrinks; a node is *reached* once it has been derived from given nodes at all.  `LandmarkTable.evaluate` recomputes
one entry from those of the predecessors,

    any:   (⋂ reached predecessors) ∪ {self}
    all:   (⋃ predecessors) ∪ {self}, once every predecessor is reached
    given: {self}

`AndOrGraph.propagate` recomputes nodes from a queue: at first the given ones wait and those that nothing feeds, and a
node that is newly reached or has lost something sends whatever it feeds to the back.  Nodes that are never reached
keep the full set.  `LandmarkTable.sweep` recomputes every node once more, in order of id.
-/

namespace HierPlan

/-- An entry per slot, and the slots derived so far. -/
structure LandmarkTable where
  entries : Array IdSet
  reached : IdSet

namespace LandmarkTable

/-- How many slots the table has. -/
def width (t : LandmarkTable) : Nat := t.entries.size

/-- The entry of a slot; past the table it is full, like that of any unreached node. -/
def entry (t : LandmarkTable) (id : Nat) : IdSet := t.entries[id]?.getD (.full t.width)

/-- Whether a node has been derived. -/
def isReached (t : LandmarkTable) (id : Nat) : Bool := t.reached.contains id

/-- Nothing derived yet. -/
def start (g : AndOrGraph) : LandmarkTable where
  entries := (Array.range g.size).map fun id =>
    if (g.node? id).any fun n => n.rule == .given then .ofList g.size [id] else .full g.size
  reached := .empty g.size

/-- The common part of the entries of the reached nodes among `ps`, unless there is none. -/
def meet? (t : LandmarkTable) (ps : List Nat) : Option IdSet :=
  match ps.filter t.isReached with
  | [] => none
  | p :: rest => some (rest.foldl (fun acc q => acc.inter (t.entry q)) (t.entry p))

/-- The entries of `ps` together, unless one of them is not reached. -/
def join? (t : LandmarkTable) (ps : List Nat) : Option IdSet :=
  if ps.all t.isReached then
    some (ps.foldl (fun acc q => acc.union (t.entry q)) (.empty t.width))
  else none

/-- What a node's predecessors say about its entry; `none` while it is not derived. -/
def evaluate (t : LandmarkTable) (g : AndOrGraph) (id : Nat) : Option IdSet := do
  let n ← g.node? id
  let below ←
    match n.rule with
    | .given => some (.empty t.width)
    | .any => t.meet? n.predecessors
    | .all => t.join? n.predecessors
  some (below.insert id)

/-- The table with a new entry for a node, which is then reached. -/
def put (t : LandmarkTable) (id : Nat) (entry : IdSet) : LandmarkTable :=
  ⟨t.entries.setIfInBounds id entry, t.reached.insert id⟩

/-- Recomputes one node; says whether anything changed. -/
def revise (t : LandmarkTable) (g : AndOrGraph) (id : Nat) : LandmarkTable × Bool :=
  match t.evaluate g id with
  | none => (t, false)
  | some next =>
    if t.isReached id && decide (next = t.entry id) then (t, false) else (t.put id next, true)

/-- Recomputes every node once, in order; counts the changes. -/
def sweep (t : LandmarkTable) (g : AndOrGraph) : LandmarkTable × Nat :=
  g.ids.foldl
    (fun (t, changes) id =>
      let (t, changed) := t.revise g id
      (t, if changed then changes + 1 else changes))
    (t, 0)

end LandmarkTable

namespace AndOrGraph

/-- The given nodes and those that nothing feeds, in order. -/
def sourceIds (g : AndOrGraph) : List Nat :=
  g.ids.filter fun id => (g.node? id).any fun n => n.rule == .given || n.predecessors.isEmpty

/-- Recomputing nodes from a queue, for so many turns. -/
def landmarkRun (g : AndOrGraph) (turns : Nat) : Worklist LandmarkTable :=
  .run LandmarkTable.revise g turns (.ofIds g (.start g) g.sourceIds)

/-- The landmark table of a graph.  An entry loses no more than it holds, and what is reached stays reached, so these
turns are enough. -/
def propagate (g : AndOrGraph) : LandmarkTable := (g.landmarkRun (g.turnBound (g.size + 1))).table

end AndOrGraph

end HierPlan
