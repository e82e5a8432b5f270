import HierPlan.Double.Shortest
import HierPlan.Json.Record
import HierPlan.Scale

/-!
# Json/Double — doubles as JSON numbers

Reading is quick and not always exact: as many leading digits as fit a 64-bit word are kept, the rest
only count as places, and the word is multiplied or divided by a power of ten once it is a double.  A
number past the largest double is refused.  Writing gives the fewest digits that read back exactly,
a tie going to the even digit.
-/

namespace HierPlan

/-- A word of leading digits, and how many places are still to be multiplied in. -/
structure Significand where
  word : Nat
  places : Int

namespace Significand

/-- The word with a digit added, if it still fits. -/
def extend? (s : Significand) (d : Nat) : Option Nat :=
  let n := 10 * s.word + d
  if n ≤ maxWord then some n else none

/-- Takes the digits before the point: from the first that does not fit, digits only count. -/
def takeWhole (s : Significand) : List Nat → Significand
  | [] => s
  | d :: ds =>
    match s.extend? d with
    | some n => takeWhole { s with word := n } ds
    | none => { s with places := s.places + (ds.length + 1) }

/-- Takes the digits after the point: from the first that does not fit, digits are dropped. -/
def takeFraction (s : Significand) : List Nat → Significand
  | [] => s
  | d :: ds =>
    match s.extend? d with
    | some n => takeFraction ⟨n, s.places - 1⟩ ds
    | none => s

/-- The largest power of ten a double is multiplied by at once. -/
def maxPower : Nat := 308

/-- A power of ten as a double. -/
def power (k : Nat) : Float := Float.ofNat (Nat.pow 10 k)

/-- Divides by a power of ten, in as many parts as it takes; zero stays zero. -/
def divide (x : Float) (k : Nat) : Float :=
  if k ≤ maxPower then x / power k
  else if x == 0 then x
  else divide (x / power maxPower) (k - maxPower)
termination_by k
decreasing_by simp only [maxPower] at *; omega

/-- The size of the number, unless it is past the largest double. -/
def size? (s : Significand) : Option Float :=
  let x := Float.ofNat s.word
  if s.places < 0 then some (divide x s.places.natAbs)
  else if s.places.toNat ≤ maxPower then
    let y := x * power s.places.toNat
    if y.isInf then none else some y
  else if x == 0 then some x
  else none

end Significand

/-- The largest exponent that is read digit by digit. -/
def maxExponent : Nat := 0x7fffffff

/-- The size of a numeral.  An exponent too large to be read makes the number zero or refused. -/
def Numeral.size? (x : Numeral) : Option Float :=
  let s := (Significand.takeWhole ⟨0, 0⟩ x.whole).takeFraction (x.fraction.getD [])
  match x.exponent with
  | none => s.size?
  | some (negative, ds) =>
    let k := digitsValue ds
    if maxExponent < k then if s.word = 0 || negative then some 0 else none
    else ({ s with places := if negative then s.places - k else s.places + k }).size?

/-- The double a numeral spells. -/
def Numeral.toDouble? (x : Numeral) : Option Float :=
  x.size?.map fun y => if x.negative then -y else y

namespace Json

/-- A double; whole numbers count as doubles. -/
def asDouble : Json → Option Float
  | .number x => x.toDouble?
  | _ => none

/-- The numeral of a decimal: positional as long as the point stands at most sixteen places to the
right or five to the left of the first digit, with an exponent otherwise. -/
def numeralOf (negative : Bool) (d : Decimal) : Numeral :=
  let ds := decimalDigits d.digits
  let point := d.point
  if d.digits = 0 then ⟨negative, [0], some [0], none⟩
  else if 0 ≤ d.exponent ∧ point ≤ 16 then
    ⟨negative, ds ++ List.replicate d.exponent.toNat 0, some [0], none⟩
  else if 0 < point ∧ point ≤ 16 then
    ⟨negative, ds.take point.toNat, some (ds.drop point.toNat), none⟩
  else if -5 < point ∧ point ≤ 0 then
    ⟨negative, [0], some (List.replicate (-point).toNat 0 ++ ds), none⟩
  else
    let rest := ds.drop 1
    let e := point - 1
    ⟨negative, ds.take 1, if rest.isEmpty then none else some rest,
      some (decide (e < 0), decimalDigits e.natAbs)⟩

/-- A double; infinite and undefined ones are null. -/
def double (x : Float) : Json :=
  if Scale.isFinite x then
    .number (numeralOf (isSigned x) (Decimal.shortest .toEven (Parts.ofDouble x)))
  else .null

end Json

end HierPlan
