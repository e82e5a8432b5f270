/-!
# Json/Value — JSON values as they are written

A `Json` keeps what a reader may have to look at: the digits of a number, the order and repetition of
fields, and whether a string holds half of a surrogate pair (such a string has no text).
-/

namespace HierPlan

/-- A number as written, digit by digit. -/
structure Numeral where
  negative : Bool
  /-- The digits before the point. -/
  whole : List Nat
  /-- The digits after the point, if there is one. -/
  fraction : Option (List Nat)
  /-- The exponent, if there is one: whether it is negative, and its digits. -/
  exponent : Option (Bool × List Nat)

/-- The number a list of decimal digits spells. -/
def digitsValue (digits : List Nat) : Nat := digits.foldl (fun n d => 10 * n + d) 0

/-- The decimal digits of a number. -/
def decimalDigits (n : Nat) : List Nat := (Nat.toDigits 10 n).map fun c => c.toNat - '0'.toNat

namespace Numeral

/-- The numeral of a natural number. -/
def ofNat (n : Nat) : Numeral := ⟨false, decimalDigits n, none, none⟩

/-- The natural number a numeral spells, if it is a plain run of digits. -/
def toNat? (x : Numeral) : Option Nat :=
  match x.negative, x.fraction, x.exponent with
  | false, none, none => some (digitsValue x.whole)
  | _, _, _ => none

/-- The characters of some digits. -/
def digitText (digits : List Nat) : String :=
  String.ofList (digits.map fun d => Char.ofNat ('0'.toNat + d))

/-- The numeral as text. -/
def text (x : Numeral) : String :=
  (if x.negative then "-" else "") ++ digitText x.whole ++
    (match x.fraction with
      | none => ""
      | some ds => "." ++ digitText ds) ++
    (match x.exponent with
      | none => ""
      | some (negative, ds) => (if negative then "e-" else "e") ++ digitText ds)

end Numeral

/-- A JSON value. -/
inductive Json where
  | null
  | bool (value : Bool)
  | number (value : Numeral)
  /-- A string; one with a lone surrogate has no text. -/
  | text (value : Option String)
  | array (items : List Json)
  /-- The fields in the order they stand, repeated ones included. -/
  | object (fields : List (Option String × Json))

namespace Json

/-- A string. -/
def str (s : String) : Json := .text (some s)

/-- A natural number. -/
def nat (n : Nat) : Json := .number (.ofNat n)

/-- An object with ordinary names. -/
def record (fields : List (String × Json)) : Json :=
  .object (fields.map fun (name, value) => (some name, value))

/-- The value or `null`. -/
def orNull (x : Option Json) : Json := x.getD .null

end Json

end HierPlan
