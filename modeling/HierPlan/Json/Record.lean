import HierPlan.Json.Value
import HierPlan.Word

/-!
# Json/Record — reading records out of JSON values

A record is written as an object, or as an array of its fields in order.  `Json.fields?` lines the
values up with the names of the fields and `Json.field` reads one of them, with or without a
default.  In an object, fields that are not asked for are skipped, and a field asked for must not
stand twice; in an array, nothing may stand after the last field.
-/

namespace HierPlan

namespace Json

/-- The values of a field name among the fields of an object. -/
def valuesOf (name : String) (fields : List (Option String × Json)) : List Json :=
  fields.filterMap fun (n, v) => if n == some name then some v else none

/-- The value of a field that stands at most once: absent, or there. -/
def valueOf? (name : String) (fields : List (Option String × Json)) : Option (Option Json) :=
  match valuesOf name fields with
  | [] => some none
  | [v] => some (some v)
  | _ => none

/-- The values of the named fields, `none` for a missing one.  Arrays may leave out the last
fields. -/
def fields? (names : List String) : Json → Option (List (Option Json))
  | .object fields =>
    if fields.all fun f => f.1.isSome then names.mapM fun name => valueOf? name fields else none
  | .array items =>
    if items.length ≤ names.length then
      some (items.map some ++ List.replicate (names.length - items.length) none)
    else none
  | _ => none

/-- The values of the named fields.  Arrays have to hold every field. -/
def exactFields? (names : List String) (v : Json) : Option (List (Option Json)) :=
  match v with
  | .array items => if items.length = names.length then some (items.map some) else none
  | v => fields? names v

/-- Whether an object holds no other fields than the named ones. -/
def onlyFields (names : List String) : Json → Bool
  | .object fields => fields.all fun f => f.1.any (names.contains ·)
  | _ => true

/-- Reads a field; a missing one takes the default, if there is one. -/
def field {β : Type} (read : Json → Option β) (missing : Option β) : Option Json → Option β
  | some v => read v
  | none => missing

/-! ## Values -/

/-- A string. -/
def asText : Json → Option String
  | .text s => s
  | _ => none

/-- A truth value. -/
def asBool : Json → Option Bool
  | .bool b => some b
  | _ => none

/-- A natural number below `bound`, written as a plain run of digits. -/
def asNat (bound : Nat) : Json → Option Nat
  | .number x => x.toNat?.bind fun n => if n < bound then some n else none
  | _ => none

/-- A natural number of 64 bits. -/
def asWord : Json → Option Nat := asNat wordBound

/-- A list of values. -/
def asList {β : Type} (read : Json → Option β) : Json → Option (List β)
  | .array items => items.mapM read
  | _ => none

/-- A value or `null`. -/
def asOption {β : Type} (read : Json → Option β) : Json → Option (Option β)
  | .null => some none
  | v => (read v).map some

/-- One of some named choices: its name, or an object with that name alone and `null`. -/
def asChoice {β : Type} (choices : List (String × β)) : Json → Option β
  | .text (some name) => choices.lookup name
  | .object [(some name, .null)] => choices.lookup name
  | _ => none

end Json

end HierPlan
