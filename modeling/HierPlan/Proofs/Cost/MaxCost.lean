import HierPlan.Cost.Grounded
import HierPlan.Proofs.Cost.Derived

/-!
# Proofs/Cost/MaxCost — a cost is the least weight of a derivation, along its heaviest branch

    a cost was found  ──▸  some derivation weighs no more
    a derivation      ──▸  its root has a cost, and it is no more than the derivation weighs

The first half holds of whatever is closed under the rules (`RelaxedCosts.holds_of_lt_cap`), the second is an induction
on the derivation that uses the equations the costs solve (`RelaxedCosts.Solved.le_of_forest`).  **So costs are exact,
and only what cannot be derived has none** (`RelaxedCosts.isMaxCost_or`).
-/

namespace HierPlan

/-- Trees that weigh no more than some bound make a forest that does not either, along its heaviest branch. -/
theorem AndOrGraph.exists_forest_le {g : AndOrGraph} {roots : List Nat} {c : Nat}
    (h : ∀ id ∈ roots, ∃ w ≤ c, g.Forest max [id] w) : ∃ w ≤ c, g.Forest max roots w := by
  induction roots with
  | nil => exact ⟨0, Nat.zero_le c, .nil⟩
  | cons id rest ih =>
    obtain ⟨⟨v, hv, first⟩, others⟩ := List.forall_mem_cons.mp h
    obtain ⟨w, hw, hrest⟩ := ih others
    exact ⟨max v w, Nat.max_le.mpr ⟨hv, hw⟩, first.cons Nat.max_zero hrest⟩

/-! ## Grounded nodes -/

namespace RelaxedGoal

variable {q : RelaxedGoal} {weights : Array Nat} {state : IdSet} {id p : Nat} {n : GraphNode}

/-- The goal has a slot of its own, and what is given is left to the state. -/
structure Plain (q : RelaxedGoal) : Prop where
  goal : ∃ n, q.graph.node? q.goal = some n
  rule : ∀ id n, q.graph.node? id = some n → n.rule ≠ .given

/-- How a grounded node reads the question. -/
structure Grounds (q : RelaxedGoal) (weights : Array Nat) (state : IdSet) (id : Nat) (n : GraphNode) : Prop where
  predecessors : n.predecessors = q.feeders id
  weight : n.weight = weights[id]?.getD 0
  given : n.rule = .given ↔ id ∈ state ∧ q.graph.isKind id .fact = true
  all : n.rule = .all ↔ q.needsAll id = true

/-- The goal as it counts. -/
theorem groundedNode_goal (x : GraphNode) :
    q.groundedNode weights state q.goal x = { x with weight := 0, rule := .all, predecessors := q.wanted } := by
  simp [groundedNode]

/-- Any other node as it counts. -/
theorem groundedNode_of_ne (hid : id ≠ q.goal) (x : GraphNode) :
    q.groundedNode weights state id x =
      { x with
        weight := weights[id]?.getD 0
        rule := if x.kind = .fact ∧ id ∈ state then .given else x.rule } := by
  simp [groundedNode, hid]

/-- **Every grounded node reads the question in this way.** -/
theorem grounds (hq : q.Sound) (hp : q.Plain) (hgoal : weights[q.goal]?.getD 0 = 0)
    (here : (q.grounded weights state).node? id = some n) : q.Grounds weights state id n := by
  rw [node?_grounded, Option.map_eq_some_iff] at here
  obtain ⟨x, hx, rfl⟩ := here
  have hother : Rule.all ≠ .given := Rule.noConfusion
  by_cases hid : id = q.goal
  · subst hid
    have hnot : q.graph.isKind q.goal .fact ≠ true := fun hfact => by
      have hany := hq.fact _ hfact
      rw [q.needsAll_goal] at hany
      cases hany
    rw [groundedNode_goal]
    exact ⟨(if_pos rfl).symm, hgoal.symm, iff_of_false hother fun h => hnot h.2,
      iff_of_true rfl (q.needsAll_goal)⟩
  · have hkind : q.graph.isKind id .fact = true ↔ x.kind = .fact := by
      rw [AndOrGraph.isKind, hx]
      exact beq_iff_eq
    have hall : q.needsAll id = true ↔ x.rule = .all := by
      rw [needsAll, hx, beq_eq_false_iff_ne.mpr hid]
      exact beq_iff_eq
    have hfeeders : q.feeders id = x.predecessors := by
      rw [feeders, if_neg hid, hx]
      rfl
    rw [groundedNode_of_ne hid]
    refine ⟨hfeeders.symm, rfl, ?_, ?_⟩ <;> dsimp only
    · rw [hkind]
      split
      · rename_i hboth
        exact iff_of_true rfl hboth.symm
      · rename_i hnot
        exact iff_of_false (hp.rule id x hx) fun h => hnot h.symm
    · rw [hall]
      split
      · rename_i hboth
        refine iff_of_false hother.symm fun h => ?_
        have hany := hq.fact id (hkind.mpr hboth.1)
        rw [hall.mpr h] at hany
        cases hany
      · exact Iff.rfl

/-- A node that needs all its feeders is there. -/
theorem exists_grounded_of_needsAll (hp : q.Plain) (weights : Array Nat) (state : IdSet) (hall : q.needsAll id = true) :
    ∃ n, (q.grounded weights state).node? id = some n := by
  rw [node?_grounded]
  by_cases hid : id = q.goal
  · obtain ⟨n, hn⟩ := hp.goal
    exact ⟨_, by rw [hid, hn]; rfl⟩
  · cases hn : q.graph.node? id with
    | some n => exact ⟨_, rfl⟩
    | none =>
      rw [needsAll, hn, beq_eq_false_iff_ne.mpr hid] at hall
      cases hall

/-- So is one that needs any of them. -/
theorem exists_grounded_of_mem_feeders (weights : Array Nat) (state : IdSet) (hall : q.needsAll id = false)
    (hp : p ∈ q.feeders id) :
    ∃ n, (q.grounded weights state).node? id = some n := by
  have hid : id ≠ q.goal := by
    rintro rfl
    rw [q.needsAll_goal] at hall
    cases hall
  rw [feeders, if_neg hid] at hp
  rw [node?_grounded]
  cases hn : q.graph.node? id with
  | some n => exact ⟨_, rfl⟩
  | none =>
    rw [hn] at hp
    exact absurd hp List.not_mem_nil

end RelaxedGoal

/-! ## Costs and derivations -/

namespace RelaxedCosts

variable {q : RelaxedGoal} {weights : Array Nat} {state : IdSet} {r : RelaxedCosts} {id : Nat}
  (hq : q.Sound) (hp : q.Plain) (hgoal : weights[q.goal]?.getD 0 = 0)

include hq hp hgoal

/-- **Derivations of no more than some weight are closed under the rules.** -/
theorem closedUnder_forest : ClosedUnder q weights state
    fun id c => ∃ w ≤ c, (q.grounded weights state).Forest max [id] w := by
  refine ⟨fun f hf hkind => ?_, fun id hany p hfed c ⟨w, hw, below⟩ => ?_, fun id hall hid hnil => ?_,
    fun id hall p hfed c _ hfeeders => ?_⟩
  · obtain ⟨x, hx⟩ : ∃ x, q.graph.node? f = some x := by
      rw [AndOrGraph.isKind] at hkind
      exact Option.isSome_iff_exists.mp (by cases h : q.graph.node? f <;> simp_all)
    have here : (q.grounded weights state).node? f = some (q.groundedNode weights state f x) := by
      rw [RelaxedGoal.node?_grounded, hx]
      rfl
    have hrule := (RelaxedGoal.grounds hq hp hgoal here).given.mpr ⟨hf, hkind⟩
    exact ⟨_, le_rfl, .given here hrule .nil⟩
  · obtain ⟨n, here⟩ := RelaxedGoal.exists_grounded_of_mem_feeders weights state hany hfed
    have hn := RelaxedGoal.grounds hq hp hgoal here
    cases hrule : n.rule with
    | given => exact ⟨_, Nat.zero_le c, .given here hrule .nil⟩
    | any => exact ⟨_, (Nat.max_zero w).trans_le hw, .any here hrule (hn.predecessors ▸ hfed) below .nil⟩
    | all =>
      rw [hn.all.mp hrule] at hany
      cases hany
  · obtain ⟨n, here⟩ := RelaxedGoal.exists_grounded_of_needsAll hp weights state hall
    have hn := RelaxedGoal.grounds hq hp hgoal here
    have below : (q.grounded weights state).Forest max n.predecessors 0 := hn.predecessors ▸ hnil ▸ .nil
    refine ⟨_, ?_, .all here (hn.all.mpr hall) below .nil⟩
    rw [Nat.max_zero, hn.weight, Nat.add_zero]
  · obtain ⟨n, here⟩ := RelaxedGoal.exists_grounded_of_needsAll hp weights state hall
    have hn := RelaxedGoal.grounds hq hp hgoal here
    obtain ⟨v, hv, below⟩ := AndOrGraph.exists_forest_le (c := c) fun p' hp' => by
      obtain ⟨c', hc', w, hw, htree⟩ := hfeeders p' hp'
      exact ⟨w, hw.trans hc', htree⟩
    refine ⟨_, ?_, .all here (hn.all.mpr hall) (hn.predecessors ▸ below) .nil⟩
    rw [Nat.max_zero, hn.weight]
    exact Nat.add_le_add_left hv _

/-- **What is derived has a cost, and it is no more than the derivation weighs.** -/
theorem Solved.le_of_forest (h : Solved q weights state r) {roots : List Nat} {w : Nat}
    (hforest : (q.grounded weights state).Forest max roots w) :
    ∀ id ∈ roots, r.costOf id < costCap ∧ r.costOf id ≤ w := by
  induction hforest with
  | nil => exact fun id hid => absurd hid List.not_mem_nil
  | @given id n rest w here rule _ others =>
    obtain ⟨hstate, hkind⟩ := (RelaxedGoal.grounds hq hp hgoal here).given.mp rule
    refine List.forall_mem_cons.mpr ⟨?_, fun k hk => ⟨(others k hk).1, (others k hk).2.trans (le_max_right 0 w)⟩⟩
    rw [h.facts id hstate hkind]
    exact ⟨by decide, Nat.zero_le _⟩
  | @any id p n rest v w here rule listed _ _ below others =>
    have hn := RelaxedGoal.grounds hq hp hgoal here
    have hany : q.needsAll id = false := Bool.eq_false_iff.mpr fun hall => by
      rw [hn.all.mpr hall] at rule
      cases rule
    obtain ⟨hcap, hle⟩ := below p (List.mem_singleton.mpr rfl)
    have hleast := h.least id hany p (hn.predecessors ▸ listed)
    refine List.forall_mem_cons.mpr ⟨⟨hleast.trans_lt hcap, ?_⟩,
      fun k hk => ⟨(others k hk).1, (others k hk).2.trans (le_max_right v w)⟩⟩
    exact (hleast.trans hle).trans (le_max_left v w)
  | @all id n rest v w here rule _ _ below others =>
    have hn := RelaxedGoal.grounds hq hp hgoal here
    have hall := hn.all.mp rule
    have hid : id < q.graph.size := by
      rw [RelaxedGoal.node?_grounded, Option.map_eq_some_iff] at here
      obtain ⟨x, hx, -⟩ := here
      exact AndOrGraph.lt_size_of_node? hx
    rw [hn.predecessors] at below
    refine List.forall_mem_cons.mpr ⟨⟨h.below id hall hid fun p hfed => (below p hfed).1, ?_⟩,
      fun k hk => ⟨(others k hk).1, (others k hk).2.trans (le_max_right _ w)⟩⟩
    refine le_trans ?_ (le_max_left _ w)
    rw [hn.weight]
    by_cases hnil : q.feeders id = []
    · rw [h.alone id hall hid hnil]
      exact Nat.le_add_right ..
    · obtain ⟨p, hfed, -, hcost, -⟩ := h.supported id hall hnil fun p hfed => (below p hfed).1
      rw [hcost]
      exact Nat.add_le_add_left (below p hfed).2 _

/-- **Costs are exact**: a node costs the least weight of a derivation along its heaviest branch, or it costs as much
as the cap and has no derivation. -/
theorem isMaxCost_or (htotal : q.totalWeight weights < costCap) (id : Nat) :
    ((compute q weights state).costOf id < costCap ∧
        q.IsMaxCost weights state id ((compute q weights state).costOf id)) ∨
      ((compute q weights state).costOf id = costCap ∧
        ∀ w, ¬ (q.grounded weights state).Forest max [id] w) := by
  have hsolved : Solved q weights state (compute q weights state) := solved_compute hq htotal hgoal
  have hlower : ∀ w, (q.grounded weights state).Forest max [id] w →
      (compute q weights state).costOf id < costCap ∧ (compute q weights state).costOf id ≤ w := fun w hw =>
    hsolved.le_of_forest hq hp hgoal hw id (List.mem_singleton.mpr rfl)
  obtain hcap | hcap := (hsolved.le_cap id).lt_or_eq
  · obtain ⟨w, hw, hforest⟩ := holds_of_lt_cap hq htotal hgoal (closedUnder_forest hq hp hgoal) hcap
    obtain rfl := (hlower w hforest).2.antisymm hw
    exact .inl ⟨hcap, hforest, fun w hw => (hlower w hw).2⟩
  · exact .inr ⟨hcap, fun w hw => (hlower w hw).1.ne hcap⟩

omit hp in
/-- **A node that has a cost and needs all its feeders has a supporter**, which costs all but its own weight. -/
theorem exists_supporter (htotal : q.totalWeight weights < costCap) (hall : q.needsAll id = true)
    (hne : q.feeders id ≠ []) (hcap : (compute q weights state).costOf id < costCap) :
    ∃ p ∈ q.feeders id, (compute q weights state).supporterOf id = some p ∧
      (compute q weights state).costOf id = weights[id]?.getD 0 + (compute q weights state).costOf p := by
  have hsolved : Solved q weights state (compute q weights state) := solved_compute hq htotal hgoal
  obtain ⟨p, hfed, hsupporter, hcost, -⟩ := hsolved.supported id hall hne fun p hfed =>
    (hsolved.le_cap p).lt_of_ne fun h => hcap.ne (hsolved.unpriced id hall p hfed h)
  exact ⟨p, hfed, hsupporter, hcost⟩

end RelaxedCosts

end HierPlan
