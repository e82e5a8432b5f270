import HierPlan.Model.Basic

/-!
# Graph/Basic — AND/OR graphs over the ids of a problem

A node either needs all its predecessors, needs any one of them, or is given.  Nodes are numbered by
the ids of the components they stand for; two further families stand past them:

    [0, n) components   [n, n+O) recomposition nodes, one per operator   n+O the goal

An `AndOrGraph` is built from two descriptions: which slots hold a node, and a list of arcs.  An arc
counts only if both ends hold a node and its target is not given (`AndOrGraph.accepts`).
Predecessors and successors are both read off the list of arcs that count, so **the two lists agree,
repetitions included**.
-/

namespace HierPlan

/-- What a node stands for. -/
inductive NodeKind where
  | fact
  | operator
  | compound
  | method
  /-- An operator as a subtask. -/
  | recomposition
  /-- Everything that has to hold or be done at the end. -/
  | goal
  deriving DecidableEq, Repr

/-- When a node is derived. -/
inductive Rule where
  /-- Once every predecessor is. -/
  | all
  /-- Once some predecessor is. -/
  | any
  /-- Always. -/
  | given
  deriving DecidableEq, Repr

/-- A node before its arcs are known. -/
structure NodeLabel where
  kind : NodeKind
  rule : Rule
  /-- Charged when the node is derived. -/
  weight : Nat

/-- A node with its arcs; repeated entries stand for repeated subtasks. -/
structure GraphNode extends NodeLabel where
  predecessors : List Nat
  successors : List Nat

/-- A graph whose slots may be empty. -/
structure AndOrGraph where
  slots : Array (Option GraphNode)

namespace AndOrGraph

/-- How many slots the graph has. -/
def size (g : AndOrGraph) : Nat := g.slots.size

/-- The node in a slot. -/
def node? (g : AndOrGraph) (id : Nat) : Option GraphNode := (g.slots[id]?).join

/-- The slots that hold a node, in order. -/
def ids (g : AndOrGraph) : List Nat := (List.range g.size).filter fun id => (g.node? id).isSome

/-- The given nodes, in order. -/
def givenIds (g : AndOrGraph) : List Nat :=
  g.ids.filter fun id => (g.node? id).any fun n => n.rule == .given

/-- Whether the node in a slot is of a kind. -/
def isKind (g : AndOrGraph) (id : Nat) (kind : NodeKind) : Bool :=
  (g.node? id).any fun n => n.kind == kind

/-- The arcs that count: both ends hold a node, and the target is not given. -/
def accepts (label : Nat → Option NodeLabel) (arc : Nat × Nat) : Bool :=
  (label arc.1).isSome && (label arc.2).any fun n => n.rule != .given

/-- The node a label becomes once the arcs are known. -/
def withArcs (arcs : List (Nat × Nat)) (id : Nat) (n : NodeLabel) : GraphNode :=
  { toNodeLabel := n
    predecessors := arcs.filterMap fun a => if a.2 == id then some a.1 else none
    successors := arcs.filterMap fun a => if a.1 == id then some a.2 else none }

/-- The graph with the given labels and those of the arcs that count. -/
def ofArcs (size : Nat) (label : Nat → Option NodeLabel) (arcs : List (Nat × Nat)) : AndOrGraph :=
  let counted := arcs.filter (accepts label)
  ⟨(Array.range size).map fun id => (label id).map (withArcs counted id)⟩

@[simp] theorem size_ofArcs (size : Nat) (label : Nat → Option NodeLabel)
    (arcs : List (Nat × Nat)) : (ofArcs size label arcs).size = size := by
  simp [AndOrGraph.size, ofArcs]

/-- **A slot holds what its label says.** -/
theorem node?_ofArcs {size : Nat} {label : Nat → Option NodeLabel} {arcs : List (Nat × Nat)}
    {id : Nat} (h : id < size) :
    (ofArcs size label arcs).node? id =
      (label id).map (withArcs (arcs.filter (accepts label)) id) := by
  simp [node?, ofArcs, h]

theorem node?_eq_none {g : AndOrGraph} {id : Nat} (h : g.size ≤ id) : g.node? id = none := by
  have : g.slots[id]? = none := Array.getElem?_eq_none h
  rw [node?, this]
  rfl

/-- Only slots of the graph hold a node. -/
theorem lt_size_of_node? {g : AndOrGraph} {id : Nat} {n : GraphNode} (h : g.node? id = some n) :
    id < g.size := by
  refine Nat.lt_of_not_le fun hle => ?_
  rw [node?_eq_none hle] at h
  cases h

end AndOrGraph

end HierPlan
