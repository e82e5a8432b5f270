import HierPlan.Word

/-!
# Scale — the numbers estimates are measured in

Estimates are counted, added, averaged and compared, and one of them may be infinite.  The search
and its heuristics are written over any `Scale`; the program runs on doubles, whose rounding is part
of its answers, and the same definitions can be read on exact numbers.
-/

namespace HierPlan

/-- Numbers with an infinity, an order for queues, and the arithmetic that estimates need. -/
class Scale (α : Type) where
  /-- The number nearest to a natural number. -/
  ofNat : Nat → α
  /-- The estimate of a dead end. -/
  infinite : α
  /-- Whether a number is neither infinite nor undefined. -/
  isFinite : α → Bool
  add : α → α → α
  sub : α → α → α
  div : α → α → α
  /-- The smaller of two numbers. -/
  smaller : α → α → α
  /-- The sum of no numbers. -/
  emptySum : α
  /-- The order of queues: total, so that two numbers compare equal only if they are the same. -/
  compare : α → α → Ordering

namespace Scale

variable {α : Type} [Scale α]

/-- The sum of a list, added from the left. -/
def sum (xs : List α) : α := xs.foldl add emptySum

/-- A natural number, or the infinite estimate. -/
def ofNat? (n : Option Nat) : α :=
  match n with
  | some n => ofNat n
  | none => infinite

/-- The least number of a list, if it has any. -/
def least? : List α → Option α
  | [] => none
  | x :: xs => some (xs.foldl smaller x)

end Scale

/-! ## Doubles -/

/-- The bit of a double that is set in negative ones. -/
def signBit : Nat := 0x8000000000000000

/-- The bits of a double, turned so that their order as natural numbers is the total order of
doubles: negative before positive, and -0 before +0. -/
def doubleRank (x : Float) : Nat :=
  let bits := x.toBits.toNat
  if bits < signBit then bits + signBit else maxWord - bits

/-- Doubles.  A sum starts at -0, which leaves every number it is added to unchanged. -/
instance : Scale Float where
  ofNat := Float.ofNat
  infinite := Float.ofBits 0x7ff0000000000000
  isFinite := Float.isFinite
  add := Float.add
  sub := Float.sub
  div := Float.div
  smaller a b := if b < a then b else a
  emptySum := Float.ofBits 0x8000000000000000
  compare a b := Ord.compare (doubleRank a) (doubleRank b)

end HierPlan
