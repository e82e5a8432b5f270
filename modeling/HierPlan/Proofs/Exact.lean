import HierPlan.Proofs.Scale
import Mathlib.Algebra.Order.Field.Rat
import Mathlib.Algebra.Order.Monoid.WithTop

/-!
# Proofs/Exact — estimates read as exact numbers

Rational numbers and one that is infinite: nothing is rounded and nothing overflows.  An estimate is then the
natural number it was computed as, or infinite, and **the order of queues is that of numbers**
(`Exact.compare_ne_lt`).
-/

namespace HierPlan

/-- Rational numbers, and an infinite one. -/
abbrev Exact := WithTop ℚ

/-- Exact numbers; what is done with the infinite one gives it again. -/
instance : Scale Exact where
  ofNat n := ((n : ℚ) : Exact)
  infinite := ⊤
  isFinite x := decide (x ≠ ⊤)
  add := (· + ·)
  sub := WithTop.map₂ (· - ·)
  div := WithTop.map₂ (· / ·)
  smaller := min
  emptySum := 0
  compare := Ord.compare

namespace Exact

instance transCmp : Std.TransCmp (Scale.compare : Exact → Exact → Ordering) :=
  inferInstanceAs (Std.TransCmp (Ord.compare : Exact → Exact → Ordering))

theorem isFinite_iff {x : Exact} : Scale.isFinite x = true ↔ x ≠ ⊤ := decide_eq_true_iff

theorem isFinite_add {x y : Exact} (hx : Scale.isFinite x = true) (hy : Scale.isFinite y = true) :
    Scale.isFinite (Scale.add x y) = true :=
  isFinite_iff.mpr (WithTop.add_ne_top.mpr ⟨isFinite_iff.mp hx, isFinite_iff.mp hy⟩)

theorem isFinite_ofNat (n : Nat) : Scale.isFinite (Scale.ofNat n : Exact) = true :=
  isFinite_iff.mpr WithTop.coe_ne_top

/-- Shares are finite. -/
theorem isFinite_of_isShare {x : Exact} (h : Scale.IsShare x) : Scale.isFinite x = true := by
  cases h with
  | nothing => exact isFinite_ofNat 0
  | part => exact isFinite_iff.mpr WithTop.coe_ne_top

/-- **Exact numbers are a lawful scale.** -/
instance lawful : Scale.Lawful Exact where
  infinite := rfl
  finite_ofNat n _ := isFinite_ofNat n
  finite_sum xs h := by
    suffices hfold : ∀ (xs : List Exact) (b : Exact), (∀ x ∈ xs, Scale.IsShare x) →
        Scale.isFinite b = true → Scale.isFinite (xs.foldl Scale.add b) = true from
      hfold xs _ h (isFinite_ofNat 0)
    intro xs
    induction xs with
    | nil => exact fun b _ hb => hb
    | cons x xs ih =>
      intro b hxs hb
      exact ih _ (fun y hy => hxs y (List.mem_cons_of_mem x hy))
        (isFinite_add hb (isFinite_of_isShare (hxs x List.mem_cons_self)))
  smaller_eq := min_choice

/-- **What is not served before a number is no less.** -/
theorem compare_ne_lt {x y : Exact} : Scale.compare x y ≠ .lt ↔ y ≤ x := compare_ge_iff_ge

@[simp] theorem ofNat_le_ofNat {a b : Nat} : (Scale.ofNat a : Exact) ≤ Scale.ofNat b ↔ a ≤ b := by
  change ((a : ℚ) : Exact) ≤ ((b : ℚ) : Exact) ↔ a ≤ b
  rw [WithTop.coe_le_coe, Nat.cast_le]

/-- Costs add up as they do in machine words that are wide enough. -/
theorem add_ofNat (a b : Nat) : Scale.add (Scale.ofNat a) (Scale.ofNat b : Exact) = Scale.ofNat (a + b) := by
  change ((a : ℚ) : Exact) + ((b : ℚ) : Exact) = (((a + b : Nat) : ℚ) : Exact)
  rw [Nat.cast_add, WithTop.coe_add]

/-- The least of a list is that of the library. -/
theorem least?_eq (xs : List Exact) : Scale.least? xs = xs.min? := by
  cases xs <;> rfl

/-- So is the sum. -/
theorem sum_eq (xs : List Exact) : Scale.sum xs = xs.sum := List.sum_eq_foldl.symm

/-- No estimate is negative. -/
theorem ofNat_zero_le (n : Option Nat) : (Scale.ofNat 0 : Exact) ≤ Scale.ofNat? n := by
  cases n with
  | none => exact le_top
  | some n => exact ofNat_le_ofNat.mpr (Nat.zero_le n)

end Exact

end HierPlan
