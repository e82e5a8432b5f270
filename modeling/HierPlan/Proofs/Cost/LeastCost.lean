import HierPlan.Graph.LeastWeight
import HierPlan.Proofs.Cost.Decomposition

/-!
# Proofs/Cost/LeastCost — a cost is the least weight of a derivation

    cost (node) = min (cap, least weight of a derivation)

Two halves.  Lowering a node gives it the weight of a derivation that is put together from those its predecessors
had, so every cost below the cap is a weight (`DecompositionCosts.Lowered.forest`).  In a table where no node can
be lowered, no derivation weighs less than its node costs (`DecompositionCosts.Settled.sum_le`).

**Hence a settled table is exact, in whatever order it was lowered** (`DecompositionCosts.Lowered.cost_eq`): there is
one such table, cycles that weigh nothing make no others, and no order lowers more often than
`n · costCap` times.
-/

namespace HierPlan

/-- **Below the cap a capped sum is the sum, and only then.** -/
theorem cappedTotal?_eq_some_iff {first c : Nat} {costs : List Nat} (hc : c < costCap) :
    cappedTotal? first costs = some c ↔ first + costs.sum = c := by
  refine ⟨fun h => ?_, fun h => ?_⟩
  · induction costs generalizing first with
    | nil => exact Option.some.inj h
    | cons a costs ih =>
      rw [cappedTotal?_cons] at h
      split at h
      · cases h
      have hsum := ih h
      unfold cappedAdd at hsum
      rw [List.sum_cons]
      omega
  · subst h
    exact cappedTotal?_eq_some hc

namespace DecompositionCosts

variable {g : AndOrGraph} {t t' : DecompositionCosts} {id k : Nat}

/-- The least of some numbers and a bound is the bound or one of the numbers. -/
theorem foldl_min_mem {xs : List Nat} {b : Nat} (h : xs.foldl min b < b) : xs.foldl min b ∈ xs :=
  have hleast : (b :: xs).min? = some (xs.foldl min b) := rfl
  (List.mem_cons.mp (List.min?_eq_some_iff.mp hleast).1).resolve_left h.ne

/-! ## Settled tables -/

/-- No node can be lowered. -/
def Settled (t : DecompositionCosts) (g : AndOrGraph) : Prop := ∀ id, t.Quiet g id

/-- **In a settled table the roots of a forest cost no more than it weighs.** -/
theorem Settled.sum_le (hs : t.Settled g) (hfit : t.Fits g) {roots : List Nat} {w : Nat}
    (h : g.Forest (· + ·) roots w) : (roots.map t.cost).sum ≤ w := by
  induction h with
  | nil => exact le_rfl
  | given here rule _ others =>
    have hcost := hs _ _ here
    rw [evaluate, rule] at hcost
    rw [List.map_cons, List.sum_cons]
    exact Nat.add_le_add hcost others
  | @any id p n rest v w here rule listed _ _ below others =>
    have hcost := hs _ _ here
    rw [evaluate, rule] at hcost
    have hp : t.cost p ≤ v := by simpa using below
    rw [List.map_cons, List.sum_cons]
    exact Nat.add_le_add ((hcost.trans (foldl_min_le (List.mem_map_of_mem listed))).trans hp) others
  | @all id n rest v w here rule _ _ below others =>
    have hcost := hs _ _ here
    rw [evaluate, rule] at hcost
    rw [List.map_cons, List.sum_cons]
    refine Nat.add_le_add ?_ others
    -- where the sum reaches the cap, no cost is above it
    by_cases hcap : n.weight + (n.predecessors.map t.cost).sum < costCap
    · change t.cost id ≤ (cappedTotal? n.weight (n.predecessors.map t.cost)).getD costCap at hcost
      rw [cappedTotal?_eq_some hcap] at hcost
      exact hcost.trans (Nat.add_le_add_left below _)
    · exact (hfit.le_cap id).trans (by omega)

/-- No derivation of a node weighs less than the node costs. -/
theorem Settled.cost_le (hs : t.Settled g) (hfit : t.Fits g) {w : Nat} (h : g.Forest (· + ·) [id] w) :
    t.cost id ≤ w := by
  have hsum := hs.sum_le hfit h
  rwa [List.map_singleton, List.sum_singleton] at hsum

/-! ## Lowering in any order -/

/-- The tables that so many changes lead to, one node lowered at a time and in any order. -/
inductive Lowered (g : AndOrGraph) : Nat → DecompositionCosts → Prop where
  | start : Lowered g 0 (Array.replicate g.size costCap)
  | lower {k id : Nat} {t : DecompositionCosts} {n : GraphNode} (before : Lowered g k t)
      (here : g.node? id = some n) (cheaper : t.evaluate n < t.cost id) :
      Lowered g (k + 1) (t.setIfInBounds id (t.evaluate n))

/-- What a cost below the cap is put together from. -/
theorem forest_evaluate (hforest : ∀ p, t.cost p < costCap → g.Forest (· + ·) [p] (t.cost p)) {n : GraphNode}
    (here : g.node? id = some n) (hcap : t.evaluate n < costCap) : g.Forest (· + ·) [id] (t.evaluate n) := by
  cases rule : n.rule with
  | given =>
    rw [evaluate, rule]
    exact .given here rule .nil
  | any =>
    rw [evaluate, rule] at hcap ⊢
    obtain ⟨p, listed, hp⟩ := List.mem_map.mp (foldl_min_mem hcap)
    change g.Forest _ _ ((n.predecessors.map t.cost).foldl min costCap)
    rw [← hp] at hcap ⊢
    exact .any here rule listed (hforest p hcap) .nil
  | all =>
    rw [evaluate, rule] at hcap ⊢
    change (cappedTotal? n.weight (n.predecessors.map t.cost)).getD costCap < costCap at hcap
    change g.Forest _ _ ((cappedTotal? n.weight (n.predecessors.map t.cost)).getD costCap)
    cases htotal : cappedTotal? n.weight (n.predecessors.map t.cost) with
    | none =>
      rw [htotal] at hcap
      exact absurd hcap (Nat.lt_irrefl _)
    | some c =>
      rw [htotal] at hcap
      obtain rfl := (cappedTotal?_eq_some_iff hcap).mp htotal
      refine .all here rule (AndOrGraph.forest_of_trees Nat.add_zero fun p hp => hforest p ?_) .nil
      have hle := List.single_le_sum (fun x _ => Nat.zero_le x) _ (List.mem_map_of_mem (f := t.cost) hp)
      simp only [Option.getD_some] at hcap
      omega

namespace Lowered

theorem fits (h : Lowered g k t) : t.Fits g := by
  induction h with
  | start => exact fits_replicate g
  | lower _ here cheaper ih => exact ih.lower here cheaper

/-- **No order lowers more often than this.** -/
theorem le_bound (h : Lowered g k t) : k ≤ g.size * costCap := by
  suffices t.total g + k ≤ g.size * costCap from (Nat.le_add_left ..).trans this
  induction h with
  | start => exact (fits_replicate g).total_le
  | lower before here cheaper ih =>
    have hless := before.fits.total_lower here cheaper
    omega

/-- **A cost below the cap is the weight of a derivation.** -/
theorem forest (h : Lowered g k t) (hcap : t.cost id < costCap) : g.Forest (· + ·) [id] (t.cost id) := by
  induction h generalizing id with
  | start =>
    unfold cost at hcap
    rw [Array.getElem?_replicate] at hcap
    split at hcap <;> exact absurd hcap (Nat.lt_irrefl _)
  | @lower k j t n before here cheaper ih =>
    have hj : j < t.size := before.fits.size ▸ AndOrGraph.lt_size_of_node? here
    rw [cost_setIfInBounds hj] at hcap ⊢
    split at hcap
    · rename_i hid
      subst hid
      rw [if_pos rfl]
      exact forest_evaluate (fun p => ih) here hcap
    · rename_i hid
      rw [if_neg hid]
      exact ih hcap

/-- Lowering one more node, if it can be. -/
theorem revise (h : Lowered g k t) (id : Nat) : ∃ k', Lowered g k' (t.revise g id).1 := by
  obtain ⟨hr, -⟩ | ⟨n, here, cheaper, hr⟩ := revise_cases t g id
  · exact ⟨k, hr ▸ h⟩
  · exact ⟨k + 1, hr ▸ h.lower here cheaper⟩

/-- Lowering all nodes in order. -/
theorem sweep (h : Lowered g k t) : ∃ k', Lowered g k' (t.sweep g).1 := by
  unfold DecompositionCosts.sweep
  generalize false = b
  induction g.ids generalizing t k b with
  | nil => exact ⟨k, h⟩
  | cons id ids ih =>
    obtain ⟨k', hk'⟩ := h.revise id
    exact ih hk' _

theorem settle {fuel : Nat} (h : Lowered g k t) : ∃ k', Lowered g k' (settle g fuel t) := by
  induction fuel generalizing t k with
  | zero => exact ⟨k, h⟩
  | succ fuel ih =>
    obtain ⟨k', hk'⟩ := h.sweep
    unfold DecompositionCosts.settle
    dsimp only
    split
    exacts [ih hk', ⟨k', hk'⟩]

/-! ## Settled, however lowered -/

variable (h : Lowered g k t) (hs : t.Settled g)

include h hs

/-- **A cost of a settled table is the least weight of a derivation, or the cap.** -/
theorem cost_eq (id : Nat) : (t.cost id : ℕ∞) = min (costCap : ℕ∞) (g.leastWeight (· + ·) id) := by
  have hlower : ∀ w, g.Forest (· + ·) [id] w → t.cost id ≤ w := fun w hw => hs.cost_le h.fits hw
  obtain hcap | hcap := (h.fits.le_cap id).lt_or_eq
  · rw [AndOrGraph.leastWeight_eq (h.forest hcap) hlower, min_eq_right (Nat.cast_le.mpr hcap.le)]
  · have hle := AndOrGraph.le_leastWeight fun w hw => (Nat.cast_le (α := ℕ∞)).mpr (hlower w hw)
    rw [hcap] at hle ⊢
    exact (min_eq_left hle).symm

/-- **There is one settled table.** -/
theorem eq_of_settled {k' : Nat} (h' : Lowered g k' t') (hs' : t'.Settled g) : t = t' := by
  have hcost : ∀ id, t.cost id = t'.cost id := fun id =>
    Nat.cast_injective ((h.cost_eq hs id).trans (h'.cost_eq hs' id).symm)
  refine Array.ext (h.fits.size.trans h'.fits.size.symm) fun i hi hi' => ?_
  have hi := hcost i
  unfold cost at hi
  simpa [*] using hi

end Lowered

end DecompositionCosts

/-- The costs of a graph are lowered from the cap. -/
theorem AndOrGraph.decompositionCosts_lowered (g : AndOrGraph) :
    ∃ k, DecompositionCosts.Lowered g k g.decompositionCosts :=
  DecompositionCosts.Lowered.start.settle

end HierPlan
