import HierPlan.Model.Error

/-!
# Model/Draft — declaring a problem piece by piece

A `Draft` collects declarations; `Draft.build` checks every reference and turns it into a `Model`,
or names the first reference that leads nowhere.  The declarations are checked in the order
operators, methods, initial state, goal, network (`Draft.assemble`); then a lone artificial top task
gives way to the network of its only method (`Model.withoutTop`), and what is left to do must not
be empty.
-/

namespace HierPlan

/-- A declared operator: its facts are still plain positions. -/
structure OperatorDraft where
  name : String
  cost : Nat
  pre : List Nat
  negPre : List Nat
  add : List Nat
  del : List Nat

/-- A declared method: its facts, task and subtasks are still plain positions. -/
structure MethodDraft where
  name : String
  task : Nat
  pre : List Nat
  negPre : List Nat
  network : List Task

/-- Everything declared so far. -/
structure Draft where
  facts : Array String := #[]
  operators : Array OperatorDraft := #[]
  compounds : Array String := #[]
  methods : Array MethodDraft := #[]
  init : List Nat := []
  goal : List Nat := []
  network : List Task := []

namespace Draft

/-! ## Declaring

Each declaration takes the next position of its kind. -/

/-- Declares a fact. -/
def addFact (d : Draft) (name : String) : Draft := { d with facts := d.facts.push name }

/-- Declares an operator. -/
def addOperator (d : Draft) (o : OperatorDraft) : Draft :=
  { d with operators := d.operators.push o }

/-- Declares a compound task. -/
def addCompound (d : Draft) (name : String) : Draft :=
  { d with compounds := d.compounds.push name }

/-- Declares a method. -/
def addMethod (d : Draft) (x : MethodDraft) : Draft := { d with methods := d.methods.push x }

/-- Replaces the facts that hold at the start. -/
def setInit (d : Draft) (facts : List Nat) : Draft := { d with init := facts }

/-- Replaces the facts that have to hold at the end. -/
def setGoal (d : Draft) (facts : List Nat) : Draft := { d with goal := facts }

/-- Replaces the tasks to be done. -/
def setNetwork (d : Draft) (network : List Task) : Draft := { d with network := network }

/-! ## Checking -/

/-- The set of the listed facts, unless one of them is not declared. -/
def factSet (d : Draft) (place : Place) (facts : List Nat) : Except ModelError IdSet :=
  match facts.find? fun f => decide (d.facts.size ≤ f) with
  | some f => .error (.factOutOfRange f d.facts.size place)
  | none => .ok (IdSet.ofList d.facts.size facts)

/-- Whether the operator or compound task `t` names is declared. -/
def hasTask (d : Draft) : Task → Bool
  | .operator i => decide (i < d.operators.size)
  | .compound i => decide (i < d.compounds.size)

/-- The tasks themselves, unless one of them is not declared. -/
def checkNetwork (d : Draft) (place : Place) (network : List Task) :
    Except ModelError (List Task) :=
  match network.find? fun t => !d.hasTask t with
  | some t => .error (.danglingTask t place)
  | none => .ok network

/-- The operator a declaration at position `i` stands for. -/
def buildOperator (d : Draft) (i : Nat) (o : OperatorDraft) : Except ModelError Operator := do
  let place := Place.operator o.name
  let pre ← d.factSet place o.pre
  let negPre ← d.factSet place o.negPre
  let add ← d.factSet place o.add
  let del ← d.factSet place o.del
  return { id := d.facts.size + i, name := o.name, cost := o.cost, pre, negPre, add, del }

/-- The method a declaration at position `i` stands for. -/
def buildMethod (d : Draft) (i : Nat) (x : MethodDraft) : Except ModelError Method := do
  if d.compounds.size ≤ x.task then
    throw (.detachedMethod i x.task)
  let place := Place.method x.name
  let network ← d.checkNetwork place x.network
  let pre ← d.factSet place x.pre
  let negPre ← d.factSet place x.negPre
  return {
    id := d.facts.size + d.operators.size + d.compounds.size + i
    name := x.name, task := x.task, pre, negPre, network }

/-- Positions of the methods declared for the compound task at position `a`. -/
def methodsOf (d : Draft) (a : Nat) : List Nat :=
  (d.methods.toList.zipIdx.filter fun x => x.1.task == a).map (·.2)

/-- The facts, numbered. -/
def buildFacts (d : Draft) : Array Fact := d.facts.mapIdx fun i name => { id := i, name }

/-- The compound tasks, numbered after facts and operators, each with its methods. -/
def buildCompounds (d : Draft) : Array Compound :=
  d.compounds.mapIdx fun a name =>
    { id := d.facts.size + d.operators.size + a, name, methods := d.methodsOf a }

/-- The problem exactly as declared, its network still untouched. -/
def assemble (d : Draft) : Except ModelError Model := do
  let operators ← d.operators.toList.zipIdx.mapM fun (o, i) => d.buildOperator i o
  let methods ← d.methods.toList.zipIdx.mapM fun (x, i) => d.buildMethod i x
  let init ← d.factSet .init d.init
  let goal ← d.factSet .goal d.goal
  let network ← d.checkNetwork .network d.network
  return {
    facts := d.buildFacts
    operators := operators.toArray
    compounds := d.buildCompounds
    methods := methods.toArray
    init, goal, network }

end Draft

/-- Compound tasks whose name starts so only wrap the network that was really asked for. -/
def artificialTop : String := "__top"

/-- Whether a name marks an artificial top task. -/
def isArtificialTop (name : String) : Bool := artificialTop.toList.isPrefixOf name.toList

namespace Model

/-- The method that a lone artificial top task with a single method gives way to. -/
def topMethod? (m : Model) : Option Method :=
  match m.network with
  | [.compound a] =>
    match m.compounds[a]? with
    | some t =>
      if isArtificialTop t.name then
        match t.methods with
        | [d] => m.methods[d]?
        | _ => none
      else none
    | none => none
  | _ => none

/-- The network that such a task stands for. -/
def topNetwork? (m : Model) : Option (List Task) := m.topMethod?.map (·.network)

/-- The problem with a lone artificial top task replaced by what it wraps.  The task and its method
stay in the problem, so no id moves. -/
def withoutTop (m : Model) : Model :=
  match m.topNetwork? with
  | some network => { m with network }
  | none => m

end Model

/-- The problem a draft declares. -/
def Draft.build (d : Draft) : Except ModelError Model := do
  let m ← d.assemble
  if m.withoutTop.network.isEmpty then
    throw .emptyNetwork
  return m.withoutTop

end HierPlan
