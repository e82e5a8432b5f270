import HierPlan.Double.Shortest

/-!
# Double/Text — doubles in words of a command line

A double is written with the fewest digits that read back and never with an exponent; of two equally
near numbers with so few digits, the one further from zero is written.  It is read from digits with
an optional point and exponent, or from the names of infinity and of the undefined number in any case
of letters; the value is the double nearest to what the digits say.
-/

namespace HierPlan

/-- The double as text. -/
def doubleText (x : Float) : String :=
  if x.isNaN then "NaN"
  else
    (if isSigned x then "-" else "") ++
      (if x.isInf then "inf" else (Decimal.shortest .away (Parts.ofDouble x)).positional "")

/-- The double nearest to `digits * 10 ^ exponent`.  Sizes far out of range are cut short, as powers
of ten are costly. -/
def nearestDouble (digits : Nat) (exponent : Int) : Float :=
  let point := (Nat.toDigits 10 digits).length + exponent
  if digits = 0 || point < -400 then 0
  else if 400 < point then Scale.infinite
  else Float.ofScientific digits (decide (exponent < 0)) exponent.natAbs

/-- The value of some digit characters. -/
def digitCharsValue (cs : List Char) : Nat := cs.foldl (fun n c => 10 * n + (c.toNat - 48)) 0

/-- The exponent some characters spell, none if there is none. -/
def readExponentPart (cs : List Char) : Option Int :=
  match cs with
  | [] => some 0
  | e :: rest =>
    if e == 'e' || e == 'E' then
      let (negative, digits) :=
        match rest with
        | '-' :: r => (true, r)
        | '+' :: r => (false, r)
        | r => (false, r)
      if !digits.isEmpty && digits.all Char.isDigit then
        let k : Int := digitCharsValue digits
        some (if negative then -k else k)
      else none
    else none

/-- The size some characters spell: digits with at most one point among them, and an exponent. -/
def readSize (cs : List Char) : Option Float :=
  let (whole, rest) := cs.span Char.isDigit
  let (fraction, rest) :=
    match rest with
    | '.' :: r => r.span Char.isDigit
    | r => ([], r)
  if whole.isEmpty && fraction.isEmpty then none
  else
    (readExponentPart rest).map fun k =>
      nearestDouble (digitCharsValue (whole ++ fraction)) (k - fraction.length)

/-- The double a text spells. -/
def readDouble? (text : String) : Option Float :=
  let (negative, cs) :=
    match text.toList with
    | '-' :: r => (true, r)
    | '+' :: r => (false, r)
    | r => (false, r)
  let size :=
    match String.ofList (cs.map Char.toLower) with
    | "inf" | "infinity" => some Scale.infinite
    | "nan" => some (Float.ofBits 0x7ff8000000000000)
    | _ => readSize cs
  size.map fun x => if negative then -x else x

end HierPlan
