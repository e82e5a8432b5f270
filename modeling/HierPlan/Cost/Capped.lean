import HierPlan.Word

/-!
# Cost/Capped — costs of 64 bits

Costs are natural numbers up to `costCap`.  The cap itself means that something cannot be had at
all, and sums stop there instead of wrapping.
-/

namespace HierPlan

/-- The largest number of 64 bits; as a cost, it stands for what cannot be had. -/
def costCap : Nat := maxWord

/-- The sum of two costs, or the cap if that is smaller. -/
def cappedAdd (a b : Nat) : Nat := min (a + b) costCap

theorem cappedAdd_eq {a b : Nat} (h : a + b ≤ costCap) : cappedAdd a b = a + b :=
  Nat.min_eq_left h

theorem cappedAdd_le_cap (a b : Nat) : cappedAdd a b ≤ costCap := Nat.min_le_right _ _

/-- A first cost and all costs of a list together, or the cap as soon as one of them is the cap. -/
def cappedTotal? (first : Nat) (costs : List Nat) : Option Nat :=
  costs.foldlM (fun acc c => if c = costCap then none else some (cappedAdd acc c)) first

end HierPlan
