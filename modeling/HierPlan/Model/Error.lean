import HierPlan.Model.Basic

/-!
# Model/Error — what can be wrong with a problem

A cause is a value of `ModelError`; its wording is `ModelError.message`, and nowhere else.
-/

namespace HierPlan

/-- Where a reference to a fact or a task stands. -/
inductive Place where
  | operator (name : String)
  | method (name : String)
  | init
  | goal
  | network
  deriving DecidableEq, Repr

/-- The place in words. -/
def Place.text : Place → String
  | .operator name => s!"operator `{name}`"
  | .method name => s!"decomposition `{name}`"
  | .init => "initial state"
  | .goal => "goal"
  | .network => "initial task network"

/-- The four families of names a document declares. -/
inductive NameKind where
  | fact
  | operator
  | task
  | method
  deriving DecidableEq, Repr

/-- The family in words. -/
def NameKind.text : NameKind → String
  | .fact => "fact"
  | .operator => "operator"
  | .task => "task"
  | .method => "method"

/-- The reference in words. -/
def Task.text : Task → String
  | .operator i => s!"Operator({i})"
  | .compound i => s!"Abstract({i})"

/-- Why something is not a problem, or an id not one of its ids. -/
inductive ModelError where
  /-- The problem has `total` ids and this is none of them. -/
  | idOutOfRange (id total : Nat)
  /-- What stands at the expected id stores another one. -/
  | idMismatch (expected stored : Nat)
  /-- There are `facts` facts and this is none of them. -/
  | factOutOfRange (fact facts : Nat) (place : Place)
  /-- No operator or compound task stands at this position. -/
  | danglingTask (task : Task) (place : Place)
  /-- The method names a compound task that is not there. -/
  | detachedMethod (method task : Nat)
  /-- There is nothing to do. -/
  | emptyNetwork
  /-- The name is not declared. -/
  | unknownName (kind : NameKind) (name : String)
  /-- The name is declared twice. -/
  | duplicateName (kind : NameKind) (name : String)
  /-- The name is declared as an operator and as a task. -/
  | ambiguousTask (name : String)
  /-- The text is no document. -/
  | document
  deriving DecidableEq, Repr

/-- The cause in words. -/
def ModelError.message : ModelError → String
  | .idOutOfRange id total => s!"global id {id} out of range (model has {total} components)"
  | .idMismatch expected stored => s!"component at global id {expected} stores global id {stored}"
  | .factOutOfRange fact facts place =>
    s!"fact index {fact} out of range in {place.text} (model has {facts} facts)"
  | .danglingTask task place => s!"dangling task reference {task.text} in {place.text}"
  | .detachedMethod d task => s!"decomposition {d} is not attached to abstract task {task}"
  | .emptyNetwork => "initial task network is empty"
  | .unknownName kind name => s!"unknown {kind.text} name `{name}`"
  | .duplicateName kind name => s!"duplicate {kind.text} name `{name}`"
  | .ambiguousTask name => s!"task name `{name}` is both an operator and an abstract task"
  | .document => "model document: not a problem document"

namespace Model

/-- Kind and position of what an id names, told from the range the id is in. -/
def locate (m : Model) (id : Nat) : Except ModelError Component :=
  match m.componentAt? id with
  | some c => .ok c
  | none => .error (.idOutOfRange id m.size)

/-- What the problem holds at an id, which has to store that id: where it stores another one, the problem was put
together wrongly, and that is reported. -/
def component (m : Model) (id : Nat) : Except ModelError Item := do
  let c ← m.locate id
  match m.item? c with
  | some x => if x.id = id then return x else throw (.idMismatch id x.id)
  | none => throw (.idOutOfRange id m.size)

/-- The name of what the problem holds at an id; where there is nothing, a stand-in. -/
def nameAt (m : Model) (id : Nat) : String :=
  match m.component id with
  | .ok x => x.name
  | .error _ => "<invalid>"

end Model

end HierPlan
