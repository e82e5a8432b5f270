import HierPlan.Double.Parts

/-!
# Double/Shortest — the fewest decimal digits that read back

Every double stands for an interval of numbers that round to it.  `Decimal.shortest` looks at the
grids of one digit, of two digits and so on, and takes the first grid that has a point in the
interval; of its two points next to the double, the nearer one.  Which of two equally near points is
taken is up to whoever writes the number (`Tie`).
-/

namespace HierPlan

/-- Which of two equally near numbers is taken. -/
inductive Tie where
  /-- The one with the even last digit. -/
  | toEven
  /-- The one further from zero. -/
  | away
  deriving DecidableEq, Repr

/-- The number `digits * 10 ^ exponent`. -/
structure Decimal where
  digits : Nat
  exponent : Int
  deriving DecidableEq, Repr

namespace Decimal

/-- The number as a fraction: its numerator. -/
def numerator (d : Decimal) : Nat := d.digits * Nat.pow 10 d.exponent.toNat

/-- The number as a fraction: its denominator. -/
def denominator (d : Decimal) : Nat := Nat.pow 10 (-d.exponent).toNat

/-- Twice the distance between the number and the size of a double, in the unit
`1 / (d.denominator * p.denominator)`. -/
def doubledGap (d : Decimal) (p : Parts) : Nat :=
  let x := d.numerator * p.denominator
  let y := p.numerator * d.denominator
  2 * (if x ≤ y then y - x else x - y)

/-- Whether a number rounds to the double.  Halfway points belong to the double with the even
count. -/
def roundsTo (d : Decimal) (p : Parts) : Bool :=
  let below := d.numerator * p.denominator < p.numerator * d.denominator
  let unit := d.denominator <<< p.exponent.toNat
  let gap := if below && p.crowded then 2 * d.doubledGap p else d.doubledGap p
  if p.count % 2 = 0 then gap ≤ unit else gap < unit

/-- How many digits stand before the point: the least `k` with the size below `10 ^ k`. -/
def pointAt (p : Parts) : Int :=
  ((Nat.toDigits 10 (p.numerator * Nat.pow 10 400 / p.denominator)).length : Int) - 400

/-- Whether the lower of two equally near points is taken. -/
def takesLower (tie : Tie) (lower : Nat) : Bool := tie == .toEven && lower % 2 == 0

/-- The best point of a grid, if one of the two next to the double rounds to it. -/
def onGrid? (tie : Tie) (p : Parts) (exponent : Int) : Option Decimal :=
  let floor := p.numerator * Nat.pow 10 (-exponent).toNat /
    (p.denominator * Nat.pow 10 exponent.toNat)
  let low : Decimal := ⟨floor, exponent⟩
  let high : Decimal := ⟨floor + 1, exponent⟩
  match low.roundsTo p, high.roundsTo p with
  | true, true =>
    let a := low.doubledGap p
    let b := high.doubledGap p
    some (if a < b || (a == b && takesLower tie floor) then low else high)
  | true, false => some low
  | false, true => some high
  | false, false => none

/-- The number without zeros at the end. -/
def trim (d : Decimal) : Decimal :=
  if d.digits = 0 then ⟨0, 0⟩ else go (Nat.toDigits 10 d.digits).length d
where
  /-- Strips at most so many zeros. -/
  go : Nat → Decimal → Decimal
    | 0, d => d
    | k + 1, d => if d.digits % 10 = 0 then go k ⟨d.digits / 10, d.exponent + 1⟩ else d

/-- The shortest number that rounds to the double; seventeen digits are always enough. -/
def shortest (tie : Tie) (p : Parts) : Decimal :=
  if p.count = 0 then ⟨0, 0⟩
  else
    let point := pointAt p
    match (List.range 17).findSome? fun (n : Nat) => onGrid? tie p (point - (n + 1)) with
    | some d => d.trim
    | none => ⟨p.numerator, 0⟩

/-- How many digits the number has before the point. -/
def point (d : Decimal) : Int := (Nat.toDigits 10 d.digits).length + d.exponent

/-- Some zeros. -/
def zeros (k : Nat) : String := String.ofList (List.replicate k '0')

/-- The number without an exponent; whole numbers end in `whole`. -/
def positional (d : Decimal) (whole : String) : String :=
  let ds := Nat.toDigits 10 d.digits
  if 0 ≤ d.exponent then String.ofList ds ++ zeros d.exponent.toNat ++ whole
  else if 0 < d.point then
    let k := d.point.toNat
    String.ofList (ds.take k) ++ "." ++ String.ofList (ds.drop k)
  else "0." ++ zeros (-d.point).toNat ++ String.ofList ds

end Decimal

end HierPlan
