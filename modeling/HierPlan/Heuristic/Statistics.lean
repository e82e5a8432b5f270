import HierPlan.Scale

/-!
# Heuristic/Statistics — running figures over estimates

Every estimate counts as a call; the mean and the minimum look at finite ones only.
-/

namespace HierPlan

/-- Figures over the estimates so far. -/
structure Statistics (α : Type) where
  /-- All estimates, dead ends included. -/
  calls : Nat
  /-- The finite ones among them. -/
  finite : Nat
  /-- The mean of the finite ones. -/
  mean : α
  /-- The least of the finite ones. -/
  min : Option α

namespace Statistics

variable {α : Type} [Scale α]

/-- Before the first estimate. -/
def empty : Statistics α := ⟨0, 0, Scale.ofNat 0, none⟩

/-- After one more estimate.  The mean moves by its share of the difference. -/
def record (s : Statistics α) (value : α) : Statistics α :=
  if Scale.isFinite value then
    let finite := s.finite + 1
    { calls := s.calls + 1
      finite
      mean := Scale.add s.mean (Scale.div (Scale.sub value s.mean) (Scale.ofNat finite))
      min := some (match s.min with
        | none => value
        | some m => Scale.smaller m value) }
  else { s with calls := s.calls + 1 }

@[simp] theorem calls_record (s : Statistics α) (value : α) : (s.record value).calls = s.calls + 1 := by
  unfold record
  split <;> rfl

@[simp] theorem finite_record (s : Statistics α) (value : α) :
    (s.record value).finite = s.finite + if Scale.isFinite value then 1 else 0 := by
  unfold record
  split <;> rfl

end Statistics

end HierPlan
