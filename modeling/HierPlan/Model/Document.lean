import HierPlan.Model.Draft

/-!
# Model/Document — problems written with names

A `Document` says everything by name.  `Document.toDraft` replaces each name by the position it was
declared at; operators and tasks share one namespace for subtasks, so no name may be both.  Names
are checked before they are used: repeated facts, operators and tasks first, then names that are
both an operator and a task, then repeated methods, then each reference in document order.
-/

namespace HierPlan

/-- An operator by name. -/
structure OperatorEntry where
  name : String := ""
  cost : Nat := 0
  pre : List String := []
  negPre : List String := []
  add : List String := []
  del : List String := []

/-- A method by name. -/
structure MethodEntry where
  name : String := ""
  /-- Name of the task this method refines. -/
  task : String := ""
  pre : List String := []
  negPre : List String := []
  subtasks : List String := []

/-- A whole problem by name; the order of a list gives the positions. -/
structure Document where
  facts : List String := []
  operators : List OperatorEntry := []
  tasks : List String := []
  methods : List MethodEntry := []
  init : List String := []
  goal : List String := []
  network : List String := []

/-- The first name that already stood earlier in the list. -/
def firstRepeated? (names : List String) : Option String :=
  go [] names
where
  /-- Walks the list, keeping the names already met. -/
  go (met : List String) : List String → Option String
    | [] => none
    | name :: rest => if name ∈ met then some name else go (name :: met) rest

/-- Fails on the first repeated name. -/
def checkDistinct (kind : NameKind) (names : List String) : Except ModelError Unit :=
  match firstRepeated? names with
  | some name => .error (.duplicateName kind name)
  | none => .ok ()

/-- The position a name was declared at. -/
def lookUp (kind : NameKind) (names : List String) (name : String) : Except ModelError Nat :=
  match names.findIdx? (· == name) with
  | some i => .ok i
  | none => .error (.unknownName kind name)

namespace Document

/-- Names of the operators, in order. -/
def operatorNames (d : Document) : List String := d.operators.map (·.name)

/-- The facts of a list of names. -/
def factIds (d : Document) (names : List String) : Except ModelError (List Nat) :=
  names.mapM (lookUp .fact d.facts)

/-- The operator or task of a name. -/
def taskNamed (d : Document) (name : String) : Except ModelError Task :=
  match d.operatorNames.findIdx? (· == name) with
  | some i => .ok (.operator i)
  | none => (lookUp .task d.tasks name).map .compound

/-- The declaration of an operator. -/
def operatorDraft (d : Document) (o : OperatorEntry) : Except ModelError OperatorDraft := do
  let pre ← d.factIds o.pre
  let negPre ← d.factIds o.negPre
  let add ← d.factIds o.add
  let del ← d.factIds o.del
  return { name := o.name, cost := o.cost, pre, negPre, add, del }

/-- The declaration of a method. -/
def methodDraft (d : Document) (x : MethodEntry) : Except ModelError MethodDraft := do
  let task ← lookUp .task d.tasks x.task
  let network ← x.subtasks.mapM d.taskNamed
  let pre ← d.factIds x.pre
  let negPre ← d.factIds x.negPre
  return { name := x.name, task, pre, negPre, network }

/-- Fails unless every declared name means one thing. -/
def checkNames (d : Document) : Except ModelError Unit := do
  checkDistinct .fact d.facts
  checkDistinct .operator d.operatorNames
  checkDistinct .task d.tasks
  match d.operatorNames.find? (· ∈ d.tasks) with
  | some name => throw (.ambiguousTask name)
  | none => checkDistinct .method (d.methods.map (·.name))

/-- The declarations of a document, names replaced by positions. -/
def toDraft (d : Document) : Except ModelError Draft := do
  d.checkNames
  let operators ← d.operators.mapM d.operatorDraft
  let methods ← d.methods.mapM d.methodDraft
  let init ← d.factIds d.init
  let goal ← d.factIds d.goal
  let network ← d.network.mapM d.taskNamed
  return {
    facts := d.facts.toArray
    operators := operators.toArray
    compounds := d.tasks.toArray
    methods := methods.toArray
    init, goal, network }

/-- The problem a document describes. -/
def toModel (d : Document) : Except ModelError Model := do
  let draft ← d.toDraft
  draft.build

end Document

end HierPlan
