import HierPlan.Scale

/-!
# Proofs/Scale — what is asked of the numbers estimates are measured in

Estimates that are no dead ends are whole numbers of a machine word, or sums of shares of units.  A
`Scale` is lawful when all of these are finite, so that **only a dead end is taken for one**.
-/

namespace HierPlan

namespace Scale

variable {α : Type} [Scale α]

/-- Nothing, or one of `k` equal parts of a unit. -/
inductive IsShare : α → Prop where
  | nothing : IsShare (ofNat 0)
  | part {k : Nat} (pos : 0 < k) (word : k < wordBound) : IsShare (div (ofNat 1) (ofNat k))

/-- The infinite estimate is not finite, but whole numbers of a word and sums of shares are, and the
smaller of two numbers is one of them. -/
class Lawful (α : Type) [Scale α] : Prop where
  infinite : isFinite (infinite : α) = false
  finite_ofNat : ∀ n : Nat, n < wordBound → isFinite (ofNat n : α) = true
  finite_sum : ∀ xs : List α, (∀ x ∈ xs, IsShare x) → isFinite (sum xs) = true
  smaller_eq : ∀ a b : α, smaller a b = a ∨ smaller a b = b

/-- The least number of a list is in it. -/
theorem mem_of_least? [Lawful α] {xs : List α} {y : α} (h : least? xs = some y) : y ∈ xs := by
  have hfold : ∀ (xs : List α) (b : α), xs.foldl smaller b = b ∨ xs.foldl smaller b ∈ xs := by
    intro xs
    induction xs with
    | nil => exact fun b => .inl rfl
    | cons x xs ih =>
      intro b
      rw [List.foldl_cons]
      rcases ih (smaller b x) with he | hin
      · rw [he]
        rcases Lawful.smaller_eq b x with hb | hx
        · exact .inl hb
        · exact .inr (by rw [hx]; exact List.mem_cons_self)
      · exact .inr (List.mem_cons_of_mem x hin)
  cases xs with
  | nil => cases h
  | cons x xs =>
    obtain rfl := Option.some.inj h
    rcases hfold xs x with he | hin
    · rw [he]
      exact List.mem_cons_self
    · exact List.mem_cons_of_mem x hin

end Scale

end HierPlan
