import HierPlan.Graph.View

/-!
# Graph/Drawing — a graph put together one node and one arc at a time

    empty slots ──put──▸ nodes without arcs ──draw──▸ each arc written down at both of its ends

The graph of a problem is also had by drawing it.  Nodes are put into slots first: facts, operators each with its
recomposition node, tasks, methods and the goal.  Then the arcs are drawn, and **an arc is left out if one of its ends
holds no node yet**, or its target is given; so what is drawn depends on the order in which nodes and arcs come.  It
depends on the ids that are stored, too: operators, tasks and methods are put, and operators and methods joined, at
the ids they store, while tasks are referred to by position.
-/

namespace HierPlan

namespace AndOrGraph

/-- A graph of empty slots. -/
def blank (size : Nat) : AndOrGraph := ⟨Array.replicate size none⟩

/-- Puts a node without arcs into a slot, in place of what was there. -/
def put (g : AndOrGraph) (id : Nat) (n : NodeLabel) : AndOrGraph :=
  ⟨g.slots.setIfInBounds id (some { toNodeLabel := n, predecessors := [], successors := [] })⟩

/-- Changes the node in a slot, if there is one. -/
def change (g : AndOrGraph) (id : Nat) (f : GraphNode → GraphNode) : AndOrGraph :=
  ⟨g.slots.modify id (Option.map f)⟩

/-- Draws an arc, unless its target is given or one of its ends holds no node. -/
def draw (g : AndOrGraph) (arc : Nat × Nat) : AndOrGraph :=
  if (g.node? arc.1).isSome && (g.node? arc.2).any fun n => n.rule != .given then
    (g.change arc.2 fun n => { n with predecessors := n.predecessors ++ [arc.1] }).change arc.1
      fun n => { n with successors := n.successors ++ [arc.2] }
  else g

end AndOrGraph

namespace View

/-- Where the node of a component is put: a fact by its position, anything else by the id it stores. -/
def placeOf? (m : Model) : Component → Option Nat
  | .fact f => some f
  | c => (m.item? c).map (·.id)

/-- The node of a component, where it has one. -/
def componentNode? (m : Model) (v : View) (c : Component) : Option (Nat × NodeLabel) :=
  (placeOf? m c).bind fun id => (v.componentLabel m c).map fun n => (id, n)

/-- The node this far past the components, if there is one. -/
def extraNode? (m : Model) (v : View) (k : Nat) : Option (Nat × NodeLabel) :=
  (v.extraLabel m k).map fun n => (m.size + k, n)

/-- All nodes with their slots, in the order they are put. -/
def nodes (m : Model) (v : View) : List (Nat × NodeLabel) :=
  ((List.range m.facts.size).filterMap fun f => v.componentNode? m (.fact f)) ++
    ((List.range m.operators.size).flatMap fun i =>
      (v.componentNode? m (.operator i)).toList ++ (v.extraNode? m i).toList) ++
    ((List.range m.compounds.size).filterMap fun a => v.componentNode? m (.compound a)) ++
    ((List.range m.methods.size).filterMap fun d => v.componentNode? m (.method d)) ++
    (v.extraNode? m m.operators.size).toList

/-- All arcs in the order they are drawn, between operators and methods by the ids they store. -/
def strokes (m : Model) (v : View) : List (Nat × Nat) :=
  (if v.hasFacts then
    (m.operators.toList.flatMap fun o => operatorArcs o.id o) ++ m.methods.toList.flatMap fun d => methodPreArcs d.id d
  else []) ++ (m.methods.toList.flatMap fun d => v.methodArcs m d.id d) ++
    m.operators.toList.zipIdx.flatMap fun (o, i) => v.recompositionArcs m i o.id

/-- The graph of a problem, drawn: all nodes first, then all arcs. -/
def drawn (m : Model) (v : View) : AndOrGraph :=
  (v.strokes m).foldl .draw ((v.nodes m).foldl (fun g x => g.put x.1 x.2) (.blank (m.size + v.extraSlots m)))

end View

end HierPlan
