import HierPlan.Proofs.Cost.Affordable
import HierPlan.Proofs.Graph.Passage
import HierPlan.Proofs.Landmark.Question

/-!
# Proofs/Landmark/Admissible — no execution costs less than the relaxed max-cost of its goal

    facts of the state ≤ c  ──plan──▸  operators of the plan, facts at the end  ≤ c + cost of the plan
                                       tasks done                               ≤ the same

Going along an execution, a cost is paid once for each time an operator is applied, and what a pass asks of a node is
no more than its feeders afford (`RelaxedCosts.Affords`).  So operators cost no more than the plan up to them
(`LandmarkCut.cost_le_of_walk`), and with that everything the execution does and leaves stays below the cost of the
plan.  **The goal can be reached, at no more than what the execution costs** (`LandmarkCut.maxCost?_le_of_execution`):
of all operators only those of the plan have to stay below the cap together.
-/

namespace HierPlan

namespace LandmarkCut

variable {m : Model} {network : List Task} {state : IdSet} {r : RelaxedCosts} {c : Nat}

section Affords

variable (hw : m.WellFormed) (h : r.Affords (question m network) (build m).weights state)

include hw h

/-- A node that needs any feeder costs no more than what feeds it. -/
theorem afford_any {id p : Nat} {l : NodeLabel} (hl : View.composition.label m id = some l) (hr : l.rule ≠ .all)
    (hp : View.composition.Feeds m p id) (hc : c < costCap) (hle : r.costOf p ≤ c) : r.costOf id ≤ c := by
  have hk : l.kind ≠ .goal := fun he => hr (by rw [rule_of_label hl, he])
  refine h.any id ?_ p ((mem_feeders hw hl hk).mpr hp) c hc hle
  rw [needsAll_of_label hl hk]
  exact beq_eq_false_iff_ne.mpr hr

/-- A node that needs all its feeders adds its weight. -/
theorem afford_all {id : Nat} {l : NodeLabel} (hl : View.composition.label m id = some l) (hr : l.rule = .all)
    (hk : l.kind ≠ .goal) (hc : c < costCap) (hle : ∀ p, View.composition.Feeds m p id → r.costOf p ≤ c) :
    r.costOf id ≤ (build m).weights[id]?.getD 0 + c := by
  refine h.all id ?_ (lt_of_isSome_label (Option.isSome_iff_exists.mpr ⟨l, hl⟩)) c hc fun p hp => ?_
  · rw [needsAll_of_label hl hk, hr]
    rfl
  · exact hle p ((mem_feeders hw hl hk).mp hp)

/-- An operator adds its cost to what its preconditions cost. -/
theorem afford_operator {i : Nat} {o : Operator} (known : m.operators[i]? = some o) (hc : c < costCap)
    (hpre : ∀ f ∈ o.pre, r.costOf f ≤ c) : r.costOf (m.operatorId i) ≤ m.operatorCost i + c := by
  have hi := (Array.getElem?_eq_some_iff.mp known).1
  rw [← getD_weights_operator hi]
  refine afford_all hw h (View.label_operator hi) rfl (fun hk => nomatch hk) hc fun p hp => ?_
  exact hpre p ((View.Feeds.to_operator (v := .composition) hw (fun hv => nomatch hv) known).mp hp).2

/-- Facts cost no more than an operator that makes them true. -/
theorem afford_effect {i f : Nat} {o : Operator} (known : m.operators[i]? = some o) (hf : f ∈ o.add)
    (hc : c < costCap) (hop : r.costOf (m.operatorId i) ≤ c) : r.costOf f ≤ c := by
  have hlt := (hw.operators _ _ known).add ▸ IdSet.lt_width_of_mem hf
  exact afford_any hw h (View.label_fact rfl hlt) (fun hr => nomatch hr) (.effect rfl known hf) hc hop

/-- **An operator costs no more than the plan that applies it**, on top of what the facts cost at first. -/
theorem cost_le_of_walk {a b : Situation} {plan : List Nat} (hwalk : Walk m a plan b)
    (hcap : c + m.planCost plan < costCap) (ha : ∀ f ∈ a.state, r.costOf f ≤ c) :
    ∀ i ∈ plan, r.costOf (m.operatorId i) ≤ c + m.planCost plan := by
  induction hwalk generalizing c with
  | stay => exact fun i hi => absurd hi List.not_mem_nil
  | step first after ih =>
    rw [m.planCost_append] at hcap ⊢
    cases Situation.moved hw first with
    | method known applicable => exact fun i hi => (ih (by omega) ha i hi).trans (by omega)
    | @operator state rest i o known applicable =>
      change c + (m.operatorCost i + 0 + _) < costCap at hcap
      have hop := afford_operator hw h known (c := c) (by omega) fun f hf =>
        ha f ((Operator.applicable_iff.mp applicable).1 f hf)
      have hnext : ∀ f ∈ o.apply state, r.costOf f ≤ m.operatorCost i + c := fun f hf => by
        obtain ⟨hin, -⟩ | ⟨hadd, -⟩ := Operator.mem_apply.mp hf
        · exact (ha f hin).trans (Nat.le_add_left ..)
        · exact afford_effect hw h known hadd (by omega) hop
      change ∀ k ∈ i :: _, _ ≤ c + (m.operatorCost i + 0 + _)
      refine List.forall_mem_cons.mpr ⟨by omega, fun k hk => ?_⟩
      have hrest := ih (c := m.operatorCost i + c) (by omega) hnext k hk
      omega

/-- **What costs no more than a plan is closed under doing tasks**, if the operators of the plan are. -/
theorem closes_afforded {used : Nat → Prop} (hc : c < costCap)
    (hused : ∀ i, used i → r.costOf (m.operatorId i) ≤ c) :
    m.Closes (View.composition.subtaskId m) used fun id => r.costOf id ≤ c := by
  refine View.closes_of_feeds (v := .composition) hw (fun hv => nomatch hv) rfl
    (fun id p l hl hr hp hle => afford_any hw h hl hr hp hc hle) fun id l hl hr hk huse hle => ?_
  by_cases hop : m.facts.size ≤ id ∧ id < m.facts.size + m.operators.size
  · have hid : id = m.operatorId (id - m.facts.size) := by
      rw [Model.operatorId]
      omega
    rw [hid]
    exact hused _ (huse _ (by omega) hid)
  · have hcost := afford_all hw h hl hr hk hc hle
    rwa [getD_weights, if_neg hop, Nat.zero_add] at hcost

end Affords

/-- **The relaxed max-cost of a goal is a lower bound**: an execution that reaches the goal facts and costs less than
the cap costs no less. -/
theorem maxCost?_le_of_execution {d : Draft} (hd : d.build = .ok m) (hwidth : state.width = m.facts.size)
    {plan : List Nat} {t : IdSet} (hexec : Execution m state network plan t) (hgoal : ∀ f ∈ m.goal, f ∈ t)
    (hcap : m.planCost plan < costCap) :
    ∃ c, (build m).maxCost? m state network = some c ∧ c ≤ m.planCost plan := by
  have hw := Draft.wellFormed_of_build hd
  have hsound := sound_query hw hexec.hasTask
  have h : (RelaxedCosts.compute (question m network) (build m).weights state).Affords (question m network)
      (build m).weights state := RelaxedCosts.affords_compute hsound getD_weights_goal state
  have hfacts : ∀ {b : Nat}, ∀ f ∈ state,
      (RelaxedCosts.compute (question m network) (build m).weights state).costOf f ≤ b := fun f hf => by
    have hlt := hwidth ▸ IdSet.lt_width_of_mem hf
    refine (h.facts f hf ?_).trans_le (Nat.zero_le _)
    change (View.composition.graph m).isKind f .fact = true
    rw [isKind_composition (View.label_fact rfl hlt)]
    rfl
  have hused : ∀ i ∈ plan,
      (RelaxedCosts.compute (question m network) (build m).weights state).costOf (m.operatorId i) ≤ m.planCost plan :=
    fun i hi => (cost_le_of_walk hw h (execution_iff_walk.mp hexec) (c := 0) (by omega) hfacts i hi).trans_eq
      (Nat.zero_add _)
  obtain ⟨hend, htasks⟩ := hexec.closes hw (closes_afforded hw h hcap hused) hfacts
  have hle : (RelaxedCosts.compute (question m network) (build m).weights state).costOf (View.goalId m) ≤
      (build m).weights[View.goalId m]?.getD 0 + m.planCost plan := by
    refine h.all (View.goalId m) (RelaxedGoal.needsAll_goal _) hsound.goal _ hcap fun p hp => ?_
    rw [feeders_goal, List.mem_append, IdSet.mem_toList, List.mem_map] at hp
    obtain hp | ⟨x, hx, rfl⟩ := hp
    · exact hend p (hgoal p hp)
    · rw [taskNode_eq (hexec.hasTask x hx)]
      exact htasks x hx
  rw [getD_weights_goal, Nat.zero_add] at hle
  exact ⟨_, if_neg (hle.trans_lt hcap).ne, hle⟩

/-- The switch lights the lamp, so its goal costs no more than the switch does. -/
theorem maxCost?_le_of_execution_lamp :
    (Draft.lamp [0]).build = .ok (Model.lamp [0]) ∧
      ∃ c, (build (.lamp [0])).maxCost? (.lamp [0]) (.ofList 2 []) [.compound 0] = some c ∧ c ≤ 3 := by
  have inside : Execution (.lamp [0]) (.ofList 2 []) [.operator 1] [1] (.ofList 2 [0]) :=
    .operator rfl rfl .done
  have whole : Execution (.lamp [0]) (.ofList 2 []) [.compound 0] ([1] ++ []) (.ofList 2 [0]) :=
    .compound (x := ⟨4, "light", [0, 1]⟩) (d := 1) rfl (by decide) rfl rfl inside .done
  exact ⟨rfl, maxCost?_le_of_execution (show (Draft.lamp [0]).build = .ok (Model.lamp [0]) from rfl) rfl whole
    (fun f hf => hf) (by decide)⟩

end LandmarkCut

end HierPlan
