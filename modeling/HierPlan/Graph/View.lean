import HierPlan.Graph.Basic

/-!
# Graph/View — the ways to see a problem as an AND/OR graph

* `bottomUp`: preconditions feed operators and methods, subtasks feed methods, methods feed tasks;
  the facts of the initial state are given.
* `topDown`: the same fact layer, but tasks feed methods and methods feed their subtasks; the tasks
  of the initial network are given.  Operators are subtasks through their recomposition nodes.
* `decomposition`: the task layer alone, without facts.
* `composition`: bottom-up with recomposition nodes, a goal node, and no given fact: what holds is
  decided each time the graph is evaluated.
-/

namespace HierPlan

/-- How much an operator counts in a decomposition graph. -/
inductive Weighting where
  /-- Every operator counts one. -/
  | unit
  /-- Every operator counts its cost. -/
  | cost
  deriving DecidableEq, Repr

/-- A way to see a problem as a graph. -/
inductive View where
  | bottomUp
  | topDown
  | decomposition (weighting : Weighting)
  | composition
  deriving DecidableEq, Repr

namespace View

/-- Whether facts have nodes. -/
def hasFacts : View → Bool
  | .decomposition _ => false
  | _ => true

/-- Whether the facts of the initial state are given. -/
def givesFacts : View → Bool
  | .bottomUp | .topDown => true
  | _ => false

/-- How many slots stand past the components. -/
def extraSlots (m : Model) : View → Nat
  | .bottomUp | .decomposition _ => 0
  | .topDown => m.operators.size
  | .composition => m.operators.size + 1

/-- What an operator weighs. -/
def operatorWeight (m : Model) (v : View) (i : Nat) : Nat :=
  match v with
  | .decomposition .unit => 1
  | _ => (m.operators[i]?.map (·.cost)).getD 0

/-- A task that is given if the initial network asks for it. -/
def taskRule (m : Model) (v : View) (t : Task) : Rule :=
  if v = .topDown ∧ t ∈ m.network then .given else .any

/-- The label of the node for a component. -/
def componentLabel (m : Model) (v : View) : Component → Option NodeLabel
  | .fact f =>
    if v.hasFacts then
      some ⟨.fact, if v.givesFacts && m.init.contains f then .given else .any, 0⟩
    else none
  | .operator i => some ⟨.operator, .all, v.operatorWeight m i⟩
  | .compound a => some ⟨.compound, v.taskRule m (.compound a), 0⟩
  | .method _ => some ⟨.method, .all, 0⟩

/-- The label of the node this far past the components. -/
def extraLabel (m : Model) (v : View) (k : Nat) : Option NodeLabel :=
  match v with
  | .bottomUp | .decomposition _ => none
  | .topDown =>
    if k < m.operators.size then some ⟨.recomposition, v.taskRule m (.operator k), 0⟩ else none
  | .composition =>
    if k < m.operators.size then some ⟨.recomposition, .any, 0⟩
    else if k = m.operators.size then some ⟨.goal, .all, 0⟩
    else none

/-- The label of the node in a slot. -/
def label (m : Model) (v : View) (id : Nat) : Option NodeLabel :=
  match m.componentAt? id with
  | some c => v.componentLabel m c
  | none => v.extraLabel m (id - m.size)

/-- The recomposition slot of an operator. -/
def recompositionId (m : Model) (i : Nat) : Nat := m.size + i

/-- The goal slot. -/
def goalId (m : Model) : Nat := m.size + m.operators.size

/-- The slot that stands for a subtask. -/
def subtaskId (m : Model) (v : View) : Task → Nat
  | .operator i =>
    match v with
    | .topDown | .composition => recompositionId m i
    | _ => m.operatorId i
  | .compound a => m.compoundId a

/-- Arcs from preconditions to the operator at an id, and from there to the facts it adds. -/
def operatorArcs (id : Nat) (o : Operator) : List (Nat × Nat) :=
  (o.pre.toList.map fun f => (f, id)) ++ o.add.toList.map fun f => (id, f)

/-- Arcs from preconditions to the method at an id. -/
def methodPreArcs (id : Nat) (d : Method) : List (Nat × Nat) := d.pre.toList.map fun f => (f, id)

/-- Arcs between the method at an id, its task and its subtasks, one per occurrence. -/
def methodArcs (m : Model) (v : View) (id : Nat) (d : Method) : List (Nat × Nat) :=
  match v with
  | .topDown => (m.compoundId d.task, id) :: d.network.map fun t => (id, v.subtaskId m t)
  | _ => (d.network.map fun t => (v.subtaskId m t, id)) ++ [(id, m.compoundId d.task)]

/-- The arc between the operator at an id and its recomposition node. -/
def recompositionArcs (m : Model) (v : View) (i id : Nat) : List (Nat × Nat) :=
  match v with
  | .topDown => [(recompositionId m i, id)]
  | .composition => [(id, recompositionId m i)]
  | _ => []

/-- Arcs of the fact layer. -/
def factArcs (m : Model) (v : View) : List (Nat × Nat) :=
  if v.hasFacts then
    (m.operators.toList.zipIdx.flatMap fun (o, i) => operatorArcs (m.operatorId i) o) ++
      m.methods.toList.zipIdx.flatMap fun (d, i) => methodPreArcs (m.methodId i) d
  else []

/-- All arcs, in the order they are drawn. -/
def arcs (m : Model) (v : View) : List (Nat × Nat) :=
  v.factArcs m ++ (m.methods.toList.zipIdx.flatMap fun (d, i) => v.methodArcs m (m.methodId i) d) ++
    (List.range m.operators.size).flatMap fun i => v.recompositionArcs m i (m.operatorId i)

/-- The graph of a problem. -/
def graph (m : Model) (v : View) : AndOrGraph :=
  .ofArcs (m.size + v.extraSlots m) (v.label m) (v.arcs m)

/-- The recomposition node of an operator, where the graph has one. -/
def recomposition? (m : Model) (g : AndOrGraph) (i : Nat) : Option Nat :=
  if g.isKind (recompositionId m i) .recomposition then some (recompositionId m i) else none

/-- The goal node, where the graph has one. -/
def goal? (m : Model) (g : AndOrGraph) : Option Nat :=
  if g.isKind (goalId m) .goal then some (goalId m) else none

/-- The node that stands for a task of a network. -/
def taskNode (m : Model) (g : AndOrGraph) : Task → Nat
  | .operator i => (recomposition? m g i).getD (m.operatorId i)
  | .compound a => m.compoundId a

end View

end HierPlan
