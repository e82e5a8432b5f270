import HierPlan.Cost.Worklist
import HierPlan.Proofs.Cost.LeastCost
import HierPlan.Proofs.Graph.Worklist

/-!
# Proofs/Cost/Worklist — a queue runs empty on the costs that sweeps find

A node is lowered by what feeds it, so lowering it disturbs only what it feeds, and takes something off its cost
(`DecompositionCosts.calms`).  **So the queue runs empty, on the one settled table**
(`DecompositionCosts.run_worklist`), and **an entry is the least weight of a derivation, up to the cap**
(`AndOrGraph.decompositionCosts_exact`).
-/

namespace HierPlan

namespace DecompositionCosts

variable {g : AndOrGraph}

/-- What a node's cost says of its predecessors' costs depends on nothing else. -/
theorem evaluate_setIfInBounds {t : DecompositionCosts} {id c : Nat} {x : GraphNode} (hid : id < t.size)
    (hnot : id ∉ x.predecessors) :
    DecompositionCosts.evaluate (t.setIfInBounds id c) x = t.evaluate x := by
  have hcosts : x.predecessors.map (DecompositionCosts.cost (t.setIfInBounds id c)) =
      x.predecessors.map t.cost := by
    refine List.map_congr_left fun p hp => ?_
    rw [DecompositionCosts.cost_setIfInBounds hid, if_neg fun he : p = id => hnot (he ▸ hp)]
  unfold DecompositionCosts.evaluate
  rw [hcosts]

/-- **Lowering a node takes something off its cost, and disturbs what it feeds at most.** -/
theorem calms (hg : g.Mirrored) :
    Worklist.Calms revise g (fun t => ∃ k, Lowered g k t) (fun t id => t.Quiet g id) cost := by
  rintro t id ⟨j, hlowered⟩
  obtain hquiet | ⟨n, here, cheaper, hr⟩ := revise_cases t g id
  · exact .inl hquiet
  have hlt := AndOrGraph.lt_size_of_node? here
  have hid : id < t.size := hlowered.fits.size ▸ hlt
  refine .inr ⟨_, hr, ⟨j + 1, hlowered.lower here cheaper⟩, hlt, ?_, fun k hk => ?_, fun k hk hquiet x hx => ?_⟩
  · rwa [cost_setIfInBounds hid, if_pos rfl]
  · rw [cost_setIfInBounds hid, if_neg hk]
  · have hnot : id ∉ x.predecessors := fun hp => hk (hg.fed k x hx id hp)
    rw [evaluate_setIfInBounds hid hnot, cost_setIfInBounds hid]
    split
    · rename_i hkid
      obtain rfl := Option.some.inj (here.symm.trans (hkid ▸ hx))
      exact le_rfl
    · rename_i hkid
      exact hquiet hkid x hx

/-- **The queue runs empty, and leaves the table that sweeps find.** -/
theorem run_worklist (hg : g.Mirrored) :
    (Worklist.run revise g (g.turnBound costCap) (worklist g)).queue = [] ∧
      (Worklist.run revise g (g.turnBound costCap) (worklist g)).table = g.decompositionCosts := by
  have hids : ∀ {id}, id ∈ g.ids ↔ id < g.size ∧ (g.node? id).isSome = true := by
    simp [AndOrGraph.ids, List.mem_filter]
  have hrests : ∀ id, id ∉ g.ids → Quiet (Array.replicate g.size costCap) g id := fun id hid n hn =>
    absurd (hids.mpr ⟨AndOrGraph.lt_size_of_node? hn, by rw [hn]; rfl⟩) hid
  obtain ⟨hempty, ⟨j, hlowered⟩, hquiet⟩ := (calms hg).run_ofIds hg ⟨0, .start⟩ (List.Sublist.refl g.ids) hrests
    (fun id => (fits_replicate g).le_cap id) le_rfl
  obtain ⟨k, hsweeps⟩ := g.decompositionCosts_lowered
  exact ⟨hempty, hlowered.eq_of_settled hquiet hsweeps g.decompositionCosts_settled.2⟩

end DecompositionCosts

/-! ## Costs of a graph -/

/-- **The costs of a graph are exact.**  A queue of nodes runs empty on them; so does any other order of lowering,
which cannot go on for ever; and every node costs the least weight of a derivation, or the cap if that is less. -/
theorem AndOrGraph.decompositionCosts_exact (m : Model) (v : View) :
    (Worklist.run DecompositionCosts.revise (v.graph m) ((v.graph m).turnBound costCap)
      (DecompositionCosts.worklist (v.graph m))).queue = [] ∧
    (Worklist.run DecompositionCosts.revise (v.graph m) ((v.graph m).turnBound costCap)
      (DecompositionCosts.worklist (v.graph m))).table = (v.graph m).decompositionCosts ∧
    (∀ k t, DecompositionCosts.Lowered (v.graph m) k t →
      k ≤ (v.graph m).size * costCap ∧ (t.Settled (v.graph m) → t = (v.graph m).decompositionCosts)) ∧
    ∀ id n, (v.graph m).node? id = some n →
      ((v.graph m).decompositionCosts.cost id : ℕ∞) =
          min (costCap : ℕ∞) ((v.graph m).leastWeight (· + ·) id) ∧
        ((v.graph m).decompositionCosts.cost id = costCap ↔
          ∀ w, (v.graph m).Forest (· + ·) [id] w → costCap ≤ w) := by
  obtain ⟨hempty, htable⟩ := DecompositionCosts.run_worklist (v.mirrored m)
  obtain ⟨j, hlowered⟩ := (v.graph m).decompositionCosts_lowered
  have hsettled := (v.graph m).decompositionCosts_settled.2
  refine ⟨hempty, htable, fun k t h => ⟨h.le_bound, fun hs => h.eq_of_settled hs hlowered hsettled⟩,
    fun id n _ => ⟨hlowered.cost_eq hsettled id, fun hcap w hw => ?_, fun hall => ?_⟩⟩
  · exact hcap ▸ DecompositionCosts.Settled.cost_le hsettled hlowered.fits hw
  · refine (hlowered.fits.le_cap id).antisymm (not_lt.mp fun hlt => ?_)
    exact absurd (hall _ (hlowered.forest hlt)) (not_le.mpr hlt)

end HierPlan
