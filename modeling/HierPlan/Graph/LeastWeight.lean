import HierPlan.Graph.Derivation
import Mathlib.Data.ENat.Lattice

/-!
# Graph/LeastWeight — the weight of a lightest derivation

The weights of the derivations of a node are natural numbers, so one of them is least, unless there is none:
`AndOrGraph.leastWeight` is that number, and infinite for a node that is not derivable.
-/

namespace HierPlan

namespace AndOrGraph

/-- The least weight of a derivation of a node; infinite if it has none. -/
noncomputable def leastWeight (g : AndOrGraph) (join : Nat → Nat → Nat) (id : Nat) : ℕ∞ :=
  ⨅ w : { w : Nat // g.Forest join [id] w }, (w.1 : ℕ∞)

variable {g : AndOrGraph} {join : Nat → Nat → Nat} {id w : Nat}

theorem leastWeight_le (h : g.Forest join [id] w) : g.leastWeight join id ≤ w :=
  iInf_le (fun w : { w : Nat // g.Forest join [id] w } => (w.1 : ℕ∞)) ⟨w, h⟩

/-- What no derivation weighs less than is no more than the least weight. -/
theorem le_leastWeight {c : ℕ∞} (h : ∀ w, g.Forest join [id] w → c ≤ w) : c ≤ g.leastWeight join id :=
  le_iInf fun w => h w.1 w.2

/-- **A weight that some derivation has and none is below is the least.** -/
theorem leastWeight_eq (h : g.Forest join [id] w) (hle : ∀ w', g.Forest join [id] w' → w ≤ w') :
    g.leastWeight join id = w :=
  le_antisymm (leastWeight_le h) (le_leastWeight fun w' h' => Nat.cast_le.mpr (hle w' h'))

end AndOrGraph

end HierPlan
