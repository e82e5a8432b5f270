import HierPlan.Json.Reader
import HierPlan.Json.Record
import HierPlan.Model.Document

/-!
# Model/Interchange — problem documents as JSON

Every field of a document may be left out and is then empty; costs fit 32 bits.
-/

namespace HierPlan

/-- A list of names; none by default. -/
def namesField : Option Json → Option (List String) := Json.field (Json.asList Json.asText) (some [])

/-- A name; empty by default. -/
def nameField : Option Json → Option String := Json.field Json.asText (some "")

namespace OperatorEntry

/-- Reads an operator. -/
def ofJson? (v : Json) : Option OperatorEntry := do
  match ← Json.fields? ["name", "cost", "pre", "neg_pre", "add", "del"] v with
  | [name, cost, pre, negPre, add, del] =>
    some {
      name := ← nameField name
      cost := ← Json.field (Json.asNat halfWordBound) (some 0) cost
      pre := ← namesField pre
      negPre := ← namesField negPre
      add := ← namesField add
      del := ← namesField del }
  | _ => none

end OperatorEntry

namespace MethodEntry

/-- Reads a method. -/
def ofJson? (v : Json) : Option MethodEntry := do
  match ← Json.fields? ["name", "task", "pre", "neg_pre", "subtasks"] v with
  | [name, task, pre, negPre, subtasks] =>
    some {
      name := ← nameField name
      task := ← nameField task
      pre := ← namesField pre
      negPre := ← namesField negPre
      subtasks := ← namesField subtasks }
  | _ => none

end MethodEntry

namespace Document

/-- Reads a document. -/
def ofJson? (v : Json) : Option Document := do
  match ← Json.fields? ["facts", "operators", "tasks", "methods", "init", "goal", "initial_tn"] v with
  | [facts, operators, tasks, methods, init, goal, network] =>
    some {
      facts := ← namesField facts
      operators := ← Json.field (Json.asList OperatorEntry.ofJson?) (some []) operators
      tasks := ← namesField tasks
      methods := ← Json.field (Json.asList MethodEntry.ofJson?) (some []) methods
      init := ← namesField init
      goal := ← namesField goal
      network := ← namesField network }
  | _ => none

/-- Reads the text of a document. -/
def read (text : String) : Except ModelError Document :=
  match (Json.parse? text).bind ofJson? with
  | some d => .ok d
  | none => .error .document

end Document

/-- The problem a text describes. -/
def Model.read (text : String) : Except ModelError Model := do
  let d ← Document.read text
  d.toModel

end HierPlan
