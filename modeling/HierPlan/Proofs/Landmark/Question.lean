import HierPlan.Landmark.Cut
import HierPlan.Proofs.Cost.Pass
import HierPlan.Proofs.Graph.Closure

/-!
# Proofs/Landmark/Question — what is asked of a composition graph

    goal facts, tasks of a network ──wanted──▸ goal

The goal node stands in the graph without arcs; what it depends on is wanted.  **For a well-formed
problem such a question is sound** (`LandmarkCut.sound_query`), so its costs solve the equations, and
**what an execution does is derived at less than the cap** (`LandmarkCut.wanted_lt_cap`): no task that can be
carried out is called unreachable.
-/

namespace HierPlan

/-- What all operators of a problem cost together. -/
def Model.totalCost (m : Model) : Nat := (m.operators.toList.map (·.cost)).sum

namespace LandmarkCut

variable {m : Model} {network : List Task}

/-- What is asked for a network and the goal facts. -/
abbrev question (m : Model) (network : List Task) : RelaxedGoal := (build m).query m network

/-- Nodes of a composition graph carry the label of their slot. -/
theorem isKind_composition {id : Nat} {l : NodeLabel} (h : View.composition.label m id = some l)
    (kind : NodeKind) : (View.composition.graph m).isKind id kind = (l.kind == kind) := by
  obtain ⟨n, hn, rfl⟩ := View.exists_node h
  rw [AndOrGraph.isKind, hn]
  rfl

theorem goalId_ne_of_label {id : Nat} {l : NodeLabel} (h : View.composition.label m id = some l)
    (hk : l.kind ≠ .goal) : id ≠ View.goalId m := by
  rintro rfl
  rw [View.label_goal] at h
  exact hk (Option.some.inj h ▸ rfl)

/-- A node that is no goal needs what its label says. -/
theorem needsAll_of_label {id : Nat} {l : NodeLabel} (h : View.composition.label m id = some l)
    (hk : l.kind ≠ .goal) : (question m network).needsAll id = (l.rule == .all) := by
  obtain ⟨n, hn, rfl⟩ := View.exists_node h
  have hne : (id == View.goalId m) = false := beq_eq_false_iff_ne.mpr (goalId_ne_of_label h hk)
  change (id == View.goalId m || ((View.composition.graph m).node? id).any _) = _
  rw [hne, hn]
  rfl

/-- Facts, tasks and recomposition nodes need any of what feeds them, all others need everything. -/
theorem rule_of_label {id : Nat} {l : NodeLabel} (h : View.composition.label m id = some l) :
    l.rule = match l.kind with
      | .fact | .compound | .recomposition => .any
      | .operator | .method | .goal => .all := by
  unfold View.label at h
  split at h
  · rename_i c _
    cases c with
    | compound a =>
      obtain rfl := Option.some.inj h
      simp [View.taskRule]
    | fact f | operator i | method d =>
      obtain rfl := Option.some.inj h
      rfl
  · simp only [View.extraLabel] at h
    split at h
    · obtain rfl := Option.some.inj h
      rfl
    · split at h
      · obtain rfl := Option.some.inj h
        rfl
      · cases h

/-- No node of a composition graph is given. -/
theorem rule_ne_given {id : Nat} {l : NodeLabel} (h : View.composition.label m id = some l) :
    l.rule ≠ .given := by
  rw [rule_of_label h]
  split <;> exact fun he => nomatch he

/-- Any other node depends on what leads into it. -/
theorem feeders_of_ne {id : Nat} (h : id ≠ View.goalId m) :
    (question m network).feeders id = View.composition.into m id := if_neg h

theorem feeders_goal : (question m network).feeders (View.goalId m) =
    m.goal.toList ++ network.map (View.taskNode m (View.composition.graph m)) := if_pos rfl

/-- A node that is no goal depends on what feeds it. -/
theorem mem_feeders (hw : m.WellFormed) {id p : Nat} {l : NodeLabel}
    (h : View.composition.label m id = some l) (hk : l.kind ≠ .goal) :
    p ∈ (question m network).feeders id ↔ View.composition.Feeds m p id := by
  obtain ⟨n, hn, rfl⟩ := View.exists_node h
  rw [← View.mem_predecessors hw hn (rule_ne_given h), feeders_of_ne (goalId_ne_of_label h hk),
    View.into, hn]
  rfl

/-- What leads into a slot feeds it. -/
theorem feeds_of_mem_into (hw : m.WellFormed) {id p : Nat} (h : p ∈ View.composition.into m id) :
    View.composition.Feeds m p id := by
  unfold View.into at h
  cases hn : (View.composition.graph m).node? id with
  | none =>
    rw [hn] at h
    exact absurd h List.not_mem_nil
  | some n =>
    rw [hn] at h
    exact (View.mem_predecessors hw hn (rule_ne_given (View.label_of_node? hn))).mp h

/-- A task of the problem stands at its slot. -/
theorem taskNode_eq {t : Task} (ht : m.HasTask t) :
    View.taskNode m (View.composition.graph m) t = View.composition.subtaskId m t := by
  cases t with
  | compound a => rfl
  | operator i =>
    have hkind : (View.composition.graph m).isKind (View.recompositionId m i) .recomposition = true := by
      rw [isKind_composition (View.label_recomposition ht)]
      rfl
    rw [View.taskNode, View.recomposition?, if_pos hkind]
    rfl

theorem lt_of_isSome_label {id : Nat} (h : (View.composition.label m id).isSome = true) :
    id < (View.composition.graph m).size := by
  obtain ⟨l, hl⟩ := Option.isSome_iff_exists.mp h
  rw [View.graph, AndOrGraph.size_ofArcs]
  exact View.lt_of_label hl

/-- **The question for valid tasks is sound.** -/
theorem sound_query (hw : m.WellFormed) (hn : ∀ t ∈ network, m.HasTask t) :
    (question m network).Sound := by
  refine ⟨?_, fun id p hp => ?_, fun id t => ?_, fun f hf => ?_⟩
  · exact lt_of_isSome_label (Option.isSome_iff_exists.mpr ⟨_, View.label_goal⟩)
  · by_cases hid : id = View.goalId m
    · subst hid
      rw [feeders_goal, List.mem_append, IdSet.mem_toList, List.mem_map] at hp
      rcases hp with hp | ⟨t, ht, rfl⟩
      · have hlt := hw.goal ▸ IdSet.lt_width_of_mem hp
        exact lt_of_isSome_label (Option.isSome_iff_exists.mpr ⟨_, View.label_fact rfl hlt⟩)
      · rw [taskNode_eq (hn t ht)]
        exact lt_of_isSome_label (View.isSome_label_subtask (hn t ht))
    · rw [feeders_of_ne hid] at hp
      exact lt_of_isSome_label (View.isSome_label_of_feeds hw (feeds_of_mem_into hw hp)).1
  · have htargets : (question m network).targets id = View.composition.outOf m id ++
        List.replicate ((question m network).wanted.count id) (View.goalId m) := rfl
    rw [htargets, List.count_append, View.count_outOf, List.count_replicate]
    by_cases ht : t = View.goalId m
    · have hnone : View.composition.into m t = [] :=
        List.eq_nil_iff_forall_not_mem.mpr fun p hp =>
          View.Feeds.not_to_goal hw (ht ▸ feeds_of_mem_into hw hp)
      subst ht
      rw [hnone, List.count_nil, if_pos (beq_self_eq_true _), Nat.zero_add, feeders_goal]
      rfl
    · rw [feeders_of_ne ht, if_neg fun he => ht (beq_iff_eq.mp he).symm, Nat.add_zero]
  · unfold AndOrGraph.isKind at hf
    cases hnode : (View.composition.graph m).node? f with
    | none =>
      change ((View.composition.graph m).node? f).any _ = true at hf
      rw [hnode] at hf
      cases hf
    | some n =>
      change ((View.composition.graph m).node? f).any _ = true at hf
      rw [hnode] at hf
      have hkind : n.kind = .fact := by simpa using hf
      rw [needsAll_of_label (View.label_of_node? hnode) (by rw [hkind]; exact fun h => nomatch h),
        rule_of_label (View.label_of_node? hnode), hkind]
      rfl

/-! ## Weights -/

/-- Only operators weigh anything. -/
theorem weight_of_label {id : Nat} {l : NodeLabel} (h : View.composition.label m id = some l) :
    l.weight = if m.facts.size ≤ id ∧ id < m.facts.size + m.operators.size then
      m.operatorCost (id - m.facts.size) else 0 := by
  unfold View.label at h
  split at h
  · rename_i c hc
    obtain ⟨hid, hhas⟩ := Model.idOf_componentAt? hc
    cases c <;> obtain rfl := Option.some.inj h <;>
      simp only [Model.idOf, Model.operatorId, Model.compoundId, Model.methodId, Model.HasComponent]
        at hid hhas <;> subst hid
    · exact (if_neg (by omega)).symm
    · rw [if_pos (by omega), Nat.add_sub_cancel_left]
      rfl
    · exact (if_neg (by omega)).symm
    · exact (if_neg (by omega)).symm
  · rename_i hnone
    have hid : m.size ≤ id := by
      refine Nat.le_of_not_lt fun hlt => ?_
      simp only [Model.componentAt?, Model.operatorId, Model.compoundId, Model.methodId] at hnone
      split at hnone
      · cases hnone
      · split at hnone
        · cases hnone
        · split at hnone <;> cases hnone
    rw [if_neg (by simp only [Model.size] at hid; omega)]
    simp only [View.extraLabel] at h
    split at h
    · obtain rfl := Option.some.inj h
      rfl
    · split at h
      · obtain rfl := Option.some.inj h
        rfl
      · cases h

/-- An operator weighs its cost, nothing else weighs anything. -/
theorem getD_weights (id : Nat) : (build m).weights[id]?.getD 0 =
    if m.facts.size ≤ id ∧ id < m.facts.size + m.operators.size then
      m.operatorCost (id - m.facts.size) else 0 := by
  have hsize : (build m).graph.size = m.size + (m.operators.size + 1) := AndOrGraph.size_ofArcs ..
  by_cases hid : id < (build m).graph.size
  · have hget : (build m).weights[id]?.getD 0 =
        (((View.composition.graph m).node? id).map (·.weight)).getD 0 := by
      have hrange : (Array.range (build m).graph.size)[id]? = some id := by simp [hid]
      rw [weights, Array.getElem?_map, hrange]
      rfl
    rw [hget]
    cases hn : (View.composition.graph m).node? id with
    | some n => exact weight_of_label (View.label_of_node? hn)
    | none =>
      split
      · rename_i hin
        obtain ⟨i, rfl⟩ := Nat.exists_eq_add_of_le hin.1
        obtain ⟨n, hn', -⟩ := View.exists_node
          (View.label_operator (m := m) (v := .composition) (i := i) (by omega))
        rw [Model.operatorId, hn] at hn'
        cases hn'
      · rfl
  · have hnone : (build m).weights[id]? = none := by
      simp [weights, Nat.le_of_not_lt hid]
    rw [hnone, if_neg]
    · rfl
    · rw [hsize] at hid
      simp only [Model.size] at hid
      omega

theorem getD_weights_operator {i : Nat} (hi : i < m.operators.size) :
    (build m).weights[m.operatorId i]?.getD 0 = m.operatorCost i := by
  rw [getD_weights, if_pos (by simp only [Model.operatorId]; omega)]
  simp only [Model.operatorId, Nat.add_sub_cancel_left]

theorem getD_weights_goal : (build m).weights[View.goalId m]?.getD 0 = 0 := by
  rw [getD_weights, if_neg]
  simp only [View.goalId, Model.size]
  omega

/-- A sum over a range is one over its middle, if nothing is added outside. -/
theorem sum_range_middle {f : Nat → Nat} {a b c : Nat} (hlow : ∀ id < a, f id = 0)
    (hhigh : ∀ id, a + b ≤ id → f id = 0) :
    ((List.range (a + (b + c))).map f).sum = ((List.range b).map fun i => f (a + i)).sum := by
  have hbefore : ((List.range a).map f).sum = 0 := List.sum_eq_zero fun x hx => by
    obtain ⟨id, hid, rfl⟩ := List.mem_map.mp hx
    exact hlow id (List.mem_range.mp hid)
  have hafter : ((List.range c).map fun k => f (a + (b + k))).sum = 0 := List.sum_eq_zero fun x hx => by
    obtain ⟨k, -, rfl⟩ := List.mem_map.mp hx
    exact hhigh _ (by omega)
  simp only [List.range_add, List.map_append, List.sum_append, List.map_map, Function.comp_def]
  rw [hbefore, hafter, Nat.zero_add, Nat.add_zero]

/-- Weights that operators alone have. -/
def OperatorsOnly (m : Model) (w : Array Nat) : Prop :=
  ∀ id, (∀ i < m.operators.size, id ≠ m.operatorId i) → w[id]?.getD 0 = 0

/-- What the nodes of operators weigh together. -/
def operatorsTotal (m : Model) (w : Array Nat) : Nat :=
  ((List.range m.operators.size).map fun i => w[m.operatorId i]?.getD 0).sum

/-- **All nodes together weigh no more than operators do.** -/
theorem totalWeight_le_operatorsTotal {w : Array Nat} (hw : OperatorsOnly m w) :
    (question m network).totalWeight w ≤ operatorsTotal m w := by
  have hsize : (build m).graph.size =
      m.facts.size + (m.operators.size + (m.compounds.size + m.methods.size + m.operators.size + 1)) := by
    have h : (build m).graph.size = m.size + (m.operators.size + 1) := AndOrGraph.size_ofArcs ..
    rw [h, Model.size]
    omega
  calc (question m network).totalWeight w
      ≤ ((List.range (build m).graph.size).map fun id => w[id]?.getD 0).sum := by
        refine List.sum_le_sum fun id _ => ?_
        split
        · exact le_rfl
        · exact Nat.zero_le _
    _ = ((List.range m.operators.size).map fun i => w[m.facts.size + i]?.getD 0).sum := by
        rw [hsize]
        refine sum_range_middle (fun id hid => hw id fun i _ => ?_) fun id hid => hw id fun i hi => ?_ <;>
          · rw [Model.operatorId]
            omega

/-- The weights of a problem are those of its operators. -/
theorem operatorsOnly_weights (m : Model) : OperatorsOnly m (build m).weights := by
  intro id hid
  rw [getD_weights, if_neg fun hboth => ?_]
  exact hid (id - m.facts.size) (by omega) (by rw [Model.operatorId]; omega)

theorem operatorsTotal_weights (m : Model) : operatorsTotal m (build m).weights = m.totalCost := by
  rw [operatorsTotal, Model.totalCost]
  congr 1
  refine List.ext_getElem (by simp) fun i hi _ => ?_
  have hlt : i < m.operators.size := by simpa using hi
  rw [List.getElem_map, List.getElem_range, getD_weights_operator hlt]
  simp [Model.operatorCost, hlt]

/-- **All nodes together weigh no more than all operators cost.** -/
theorem totalWeight_le : (question m network).totalWeight (build m).weights ≤ m.totalCost :=
  (totalWeight_le_operatorsTotal (operatorsOnly_weights m)).trans_eq (operatorsTotal_weights m)

/-! ## Reaching the goal -/

section Reach

variable {weights : Array Nat} {state : IdSet} {r : RelaxedCosts}

/-- A node that needs any feeder costs no more than what feeds it. -/
theorem cost_le_of_feeds (hw : m.WellFormed) (h : r.Solved (question m network) weights state)
    {id p : Nat} {l : NodeLabel} (hl : View.composition.label m id = some l) (hr : l.rule ≠ .all)
    (hp : View.composition.Feeds m p id) : r.costOf id ≤ r.costOf p := by
  have hk : l.kind ≠ .goal := fun he => hr (by rw [rule_of_label hl, he])
  refine h.least id ?_ p ((mem_feeders hw hl hk).mpr hp)
  rw [needsAll_of_label hl hk]
  exact beq_eq_false_iff_ne.mpr hr

/-- **What has a cost below the cap is closed under doing tasks.** -/
theorem closes_reached (hw : m.WellFormed) (h : r.Solved (question m network) weights state)
    (used : Nat → Prop) :
    m.Closes (View.composition.subtaskId m) used fun id => r.costOf id < costCap := by
  refine View.closes_of_feeds (v := .composition) hw (fun he => nomatch he) rfl
    (fun id p l hl hr hp hin => (cost_le_of_feeds hw h hl hr hp).trans_lt hin)
    fun id l hl hr hk _ hin => ?_
  refine h.below id ?_ (lt_of_isSome_label (Option.isSome_iff_exists.mpr ⟨l, hl⟩)) fun p hp => ?_
  · rw [needsAll_of_label hl hk, hr]
    rfl
  · exact hin p ((mem_feeders hw hl hk).mp hp)

/-- The facts of a state cost nothing. -/
theorem cost_fact (h : r.Solved (question m network) weights state)
    (hwidth : state.width = m.facts.size) {f : Nat} (hf : f ∈ state) : r.costOf f = 0 := by
  have hlt := hwidth ▸ IdSet.lt_width_of_mem hf
  refine h.facts f hf ?_
  change (View.composition.graph m).isKind f .fact = true
  rw [isKind_composition (View.label_fact rfl hlt)]
  rfl

/-- **All that is wanted for a network that can be carried out can be reached.** -/
theorem wanted_lt_cap (hw : m.WellFormed) (h : r.Solved (question m network) weights state)
    (hwidth : state.width = m.facts.size) (hn : ∀ t ∈ network, m.HasTask t) {plan : List Nat}
    {t : IdSet} (hexec : Execution m state network plan t) (hgoal : ∀ f ∈ m.goal, f ∈ t) :
    ∀ p ∈ (question m network).feeders (View.goalId m), r.costOf p < costCap := by
  obtain ⟨hend, htasks⟩ := hexec.closes hw (closes_reached hw h _) fun f hf => by
    rw [cost_fact h hwidth hf]
    decide
  intro p hp
  rw [feeders_goal, List.mem_append, IdSet.mem_toList, List.mem_map] at hp
  rcases hp with hp | ⟨x, hx, rfl⟩
  · exact hend p (hgoal p hp)
  · rw [taskNode_eq (hn x hx)]
    exact htasks x hx

end Reach

end LandmarkCut

end HierPlan
