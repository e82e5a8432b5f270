import HierPlan.Scale

/-!
# Double/Parts — what a double says exactly

A finite double is a whole number of units, each a power of two.  `Parts` holds that number and the
exponent of its unit, so that questions about doubles become questions about natural numbers;
`roundDiv` then rounds a quotient to the nearest natural number, a tie to the even one.
-/

namespace HierPlan

/-- The size of a finite double: `count * 2 ^ exponent`. -/
structure Parts where
  /-- How many units. -/
  count : Nat
  /-- The exponent of the unit. -/
  exponent : Int
  /-- Whether the next double towards zero is only half a unit away. -/
  crowded : Bool
  deriving DecidableEq, Repr

namespace Parts

/-- The units that all doubles have but the smallest, which do not write them. -/
def implicitUnit : Nat := 1 <<< 52

/-- The size of the double with these bits. -/
def ofBits (bits : UInt64) : Parts :=
  let fraction : Nat := bits.toNat % implicitUnit
  let field : Nat := bits.toNat / implicitUnit % 0x800
  if field = 0 then ⟨fraction, -1074, false⟩
  else ⟨implicitUnit + fraction, (field : Int) - 1075, fraction = 0 && 1 < field⟩

/-- The size of a double. -/
def ofDouble (x : Float) : Parts := ofBits x.toBits

/-- The size as a fraction: its numerator. -/
def numerator (p : Parts) : Nat := p.count <<< p.exponent.toNat

/-- The size as a fraction: its denominator. -/
def denominator (p : Parts) : Nat := 1 <<< (-p.exponent).toNat

end Parts

/-- Whether a double has its sign set; also a negative zero has. -/
def isSigned (x : Float) : Bool := decide (signBit ≤ x.toBits.toNat)

/-- The natural number nearest to a quotient, the even one of two that are equally near. -/
def roundDiv (a b : Nat) : Nat :=
  let q := a / b
  let r := a % b
  if 2 * r < b then q
  else if b < 2 * r then q + 1
  else q + q % 2

end HierPlan
