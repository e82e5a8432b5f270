import HierPlan.Proofs.Cost.Pass

/-!
# Proofs/Cost/Derived — a cost is found only for what was derived

    feeders are final ──rule──▸ node has a cost ──▸ node is final ──▸ …

The equations that the computed costs solve have other solutions as well: on a cycle that weighs nothing,
nodes might support each other.  A pass does not fall for that, since a node becomes final after the feeders
that price it.  **So whatever relation of nodes to costs is closed under the rules holds of all costs that a
pass finds** (`RelaxedCosts.holds_of_lt_cap`).
-/

namespace HierPlan

namespace RelaxedCosts

variable {q : RelaxedGoal} {weights : Array Nat} {state : IdSet} {r : RelaxedCosts} {P : Nat → Nat → Prop}

/-- A relation of nodes to costs is closed under the rules. -/
structure ClosedUnder (q : RelaxedGoal) (weights : Array Nat) (state : IdSet) (P : Nat → Nat → Prop) :
    Prop where
  fact : ∀ f ∈ state, q.graph.isKind f .fact = true → P f 0
  any : ∀ id, q.needsAll id = false → ∀ p ∈ q.feeders id, ∀ c, P p c → P id c
  alone : ∀ id, q.needsAll id = true → id < q.graph.size → q.feeders id = [] →
    P id (weights[id]?.getD 0)
  /-- A node that needs all its feeders costs its weight on top of the dearest. -/
  all : ∀ id, q.needsAll id = true → ∀ p ∈ q.feeders id, ∀ c, P p c →
    (∀ p' ∈ q.feeders id, ∃ c' ≤ c, P p' c') → P id (weights[id]?.getD 0 + c)

/-- The relation holds of all final nodes at their costs. -/
def HoldsFinally (P : Nat → Nat → Prop) (r : RelaxedCosts) : Prop := ∀ k ∈ r.done, P k (r.costOf k)

/-- **A node that has a cost follows from final ones**, while no arc is still to be followed. -/
theorem Priced.holds {floor current id : Nat} (h : Priced q weights state floor current [] r)
    (hP : ClosedUnder q weights state P) (hfinal : HoldsFinally P r) (hid : id < q.graph.size)
    (hcap : r.costOf id < costCap) : P id (r.costOf id) := by
  cases hall : q.needsAll id with
  | false =>
    obtain ⟨hstate, hkind⟩ | ⟨p, hp, hdone, hcost⟩ := h.attained id hall hcap
    · rw [h.facts id hstate hkind]
      exact hP.fact id hstate hkind
    · rw [hcost]
      exact hP.any id hall p hp _ (hfinal p hdone)
  | true =>
    have hwait : r.waitingOf id = 0 := by
      by_contra hwait
      exact hcap.ne (h.unpriced id hall hwait)
    obtain ⟨halone, hsupported, -⟩ := h.settles id hall hid hwait
    by_cases hnil : q.feeders id = []
    · rw [halone hnil]
      exact hP.alone id hall hid hnil
    · obtain ⟨p, hp, -, hdone, hcost, hleast⟩ := hsupported hnil
      -- it waits for no feeder, so all of them are final
      have hcounts := h.counts id hall hid
      rw [hwait, List.count_nil, Nat.add_zero, eq_comm, List.countP_eq_zero] at hcounts
      rw [hcost]
      refine hP.all id hall p hp _ (hfinal p hdone) fun p' hp' => ⟨_, hleast p' hp', hfinal p' ?_⟩
      simpa using hcounts p' hp'

/-- **What becomes final follows from what is final.** -/
theorem Pass.holdsFinally (hq : q.Sound) (htotal : q.totalWeight weights < costCap)
    (hgoal : weights[q.goal]?.getD 0 = 0) (hP : ClosedUnder q weights state P) {log : List (Nat × Nat)}
    {pending : List Nat} (h : Pass q weights state log pending r) : HoldsFinally P r := by
  induction h with
  | start =>
    have hbegun : Begun q weights state (RelaxedCosts.start q weights state) := begun_start hq
    exact fun k hk => absurd hk (hbegun.not_done k)
  | drop before first stale ih => exact ih
  | @take log r e queue before first live new ih =>
    intro k hk
    have hfinal := ((before.take first live new).priced hq htotal hgoal).1.final k hk
    obtain hk | ⟨rfl, hid⟩ := IdSet.mem_insert.mp hk
    · exact ih k hk
    · refine (before.priced hq htotal hgoal).1.holds hP ih ?_ hfinal.2
      rwa [(before.inRange hq).1.done] at hid
  | @follow log r e target rest before ih =>
    intro k hk
    obtain ⟨hrange, hpending⟩ := before.inRange hq
    obtain ⟨⟨hfeeds, -⟩, -⟩ := List.forall_mem_cons.mp hpending
    have hr : Followed q weights e.2 e.1 r target (relax q weights e.2 e.1 r target) := relax_cases
    rw [hr.done_eq] at hk
    rw [hr.costOf_eq hrange.cost (lt_size_of_feeders hq hfeeds) hk]
    exact ih k hk

/-- **Whatever is closed under the rules holds of all costs that are found.** -/
theorem holds_of_lt_cap (hq : q.Sound) (htotal : q.totalWeight weights < costCap)
    (hgoal : weights[q.goal]?.getD 0 = 0) (hP : ClosedUnder q weights state P) {id : Nat}
    (hcap : (compute q weights state).costOf id < costCap) :
    P id ((compute q weights state).costOf id) := by
  obtain ⟨log, hpass, hempty⟩ := exists_pass_compute hq weights state
  refine hpass.holdsFinally hq htotal hgoal hP id ?_
  exact ((hpass.priced hq htotal hgoal).1.waits id hcap).resolve_right fun hin => List.not_mem_nil (hempty ▸ hin)

end RelaxedCosts

end HierPlan
