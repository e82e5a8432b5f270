import HierPlan.Proofs.Cost.MaxCost
import HierPlan.Proofs.Cost.Pass
import HierPlan.Proofs.Landmark.Question

/-!
# Proofs/Landmark/Pricing — a pass over a composition graph, with any weights and for any goal

    wanted:   goal facts, tasks of the problem
    weights:  any for operators, nothing for all other nodes

The graph of a problem answers more questions than those about its own goal: the rounds of a cut take weights off
operators, and any goal facts and tasks may be wanted.  Such a question is as sound as that of a network
(`LandmarkCut.sound_asking`).  **As long as operators weigh less than the cap together, a pass ends, takes nodes in
order of their costs, counts feeders exactly and finds the relaxed max-cost of every node**
(`LandmarkCut.pass_exact`).
-/

namespace HierPlan

/-- Soundness of a question does not depend on what is wanted. -/
theorem RelaxedGoal.Sound.withWanted {q : RelaxedGoal} (hq : q.Sound) {wanted : List Nat}
    (hwanted : ∀ p ∈ wanted, p < q.graph.size) : ({ q with wanted } : RelaxedGoal).Sound := by
  refine ⟨hq.goal, fun id p hp => ?_, fun id t => ?_, hq.fact⟩
  · by_cases hid : id = q.goal
    · exact hwanted p (by rwa [RelaxedGoal.feeders, if_pos hid] at hp)
    · refine hq.feeders id p ?_
      rwa [RelaxedGoal.feeders, if_neg hid] at hp ⊢
  · have hmirror := hq.mirror id t
    rw [RelaxedGoal.targets, RelaxedGoal.feeders, List.count_append, List.count_replicate] at hmirror ⊢
    -- no arc of the graph leads to the goal, since the arcs to it are all counted as wanted
    by_cases ht : t = q.goal
    · subst ht
      simp only [beq_self_eq_true, if_true] at hmirror ⊢
      omega
    · have hne : (q.goal == t) = false := beq_eq_false_iff_ne.mpr (Ne.symm ht)
      simp only [hne, if_neg ht, Bool.false_eq_true, if_false] at hmirror ⊢
      exact hmirror

namespace LandmarkCut

variable {m : Model} {wanted : List Nat} {weights : Array Nat} {state : IdSet}

/-- What is asked for any wanted nodes. -/
def asking (m : Model) (wanted : List Nat) : RelaxedGoal where
  graph := (build m).graph
  goal := (build m).goal
  wanted

/-- What a pass finds for them. -/
abbrev pricing (m : Model) (wanted : List Nat) (weights : Array Nat) (state : IdSet) : RelaxedCosts :=
  .compute (asking m wanted) weights state

/-- What can be wanted: the goal facts, and tasks of the problem. -/
def CanWant (m : Model) (p : Nat) : Prop :=
  p ∈ m.goal ∨ ∃ t, m.HasTask t ∧ p = View.taskNode m (build m).graph t

/-- Weights that operators alone have, and that stay below the cap together. -/
structure Weighs (m : Model) (weights : Array Nat) : Prop where
  only : OperatorsOnly m weights
  total : operatorsTotal m weights < costCap

/-- The weights of a problem, if its operators do not cost too much. -/
theorem weighs_build (h : m.totalCost < costCap) : Weighs m (build m).weights :=
  ⟨operatorsOnly_weights m, operatorsTotal_weights m ▸ h⟩

/-- **A question for goal facts and tasks is sound.** -/
theorem sound_asking (hw : m.WellFormed) (hwanted : ∀ p ∈ wanted, CanWant m p) : (asking m wanted).Sound := by
  have hsound : (question m []).Sound := sound_query hw fun t ht => absurd ht List.not_mem_nil
  refine hsound.withWanted fun p hp => ?_
  obtain hfact | ⟨t, ht, rfl⟩ := hwanted p hp
  · have hlt := hw.goal ▸ IdSet.lt_width_of_mem hfact
    exact lt_of_isSome_label (Option.isSome_iff_exists.mpr ⟨_, View.label_fact rfl hlt⟩)
  · have hnode : View.taskNode m (build m).graph t = View.composition.subtaskId m t := taskNode_eq ht
    rw [hnode]
    exact lt_of_isSome_label (View.isSome_label_subtask ht)

theorem plain_asking (m : Model) (wanted : List Nat) : (asking m wanted).Plain := by
  refine ⟨?_, fun id n here => rule_ne_given (View.label_of_node? here)⟩
  obtain ⟨n, hn, -⟩ := View.exists_node (View.label_goal (m := m))
  exact ⟨n, hn⟩

theorem Weighs.goal (h : Weighs m weights) (wanted : List Nat) : weights[(asking m wanted).goal]?.getD 0 = 0 := by
  refine h.only _ fun i hi he => ?_
  change View.goalId m = m.operatorId i at he
  simp only [View.goalId, Model.size, Model.operatorId] at he
  omega

theorem Weighs.totalWeight_lt (h : Weighs m weights) (wanted : List Nat) :
    (asking m wanted).totalWeight weights < costCap :=
  have hle : (question m []).totalWeight weights ≤ operatorsTotal m weights := totalWeight_le_operatorsTotal h.only
  hle.trans_lt h.total

/-- **A pass is exact.**  It goes by its steps and no others, and ends with an empty queue; no node that needs all its feeders is told
of one more than it waits for; entries leave the queue in order of their costs; a node costs the least weight of a
derivation along its heaviest branch, or the cap if it has no derivation; and a node that has a cost and needs all its
feeders has a supporter, which costs all but its own weight. -/
theorem pass_exact {d : Draft} (hd : d.build = .ok m) (hwanted : ∀ p ∈ wanted, CanWant m p)
    (hweights : Weighs m weights) (state : IdSet) :
    (∀ fuel, ∃ log, RelaxedCosts.Pass (asking m wanted) weights state log []
      (.drain (asking m wanted) weights fuel (.start (asking m wanted) weights state))) ∧
    (∀ log pending r, RelaxedCosts.Pass (asking m wanted) weights state log pending r → ∀ fuel,
      RelaxedCosts.drain (asking m wanted) weights (log.length + fuel) (.start (asking m wanted) weights state) =
        .drain (asking m wanted) weights fuel (pending.foldl (RelaxedCosts.relax (asking m wanted) weights
          (RelaxedCosts.lastOf log).2 (RelaxedCosts.lastOf log).1) r)) ∧
    (pricing m wanted weights state).queue.toList = [] ∧
    (∀ log target rest r, RelaxedCosts.Pass (asking m wanted) weights state log (target :: rest) r →
      (asking m wanted).needsAll target = true → 0 < r.waitingOf target) ∧
    (∀ log pending r, RelaxedCosts.Pass (asking m wanted) weights state log pending r →
      log.Pairwise fun later earlier => earlier.1 ≤ later.1) ∧
    (∀ id, ((pricing m wanted weights state).costOf id < costCap ∧
        (asking m wanted).IsMaxCost weights state id ((pricing m wanted weights state).costOf id)) ∨
      ((pricing m wanted weights state).costOf id = costCap ∧
        ∀ w, ¬ ((asking m wanted).grounded weights state).Forest max [id] w)) ∧
    ∀ id, (asking m wanted).needsAll id = true → (asking m wanted).feeders id ≠ [] →
      (pricing m wanted weights state).costOf id < costCap →
      ∃ p ∈ (asking m wanted).feeders id,
        (pricing m wanted weights state).supporterOf id = some p ∧
        (pricing m wanted weights state).costOf id =
          weights[id]?.getD 0 + (pricing m wanted weights state).costOf p := by
  have hq := sound_asking (Draft.wellFormed_of_build hd) hwanted
  have htotal := hweights.totalWeight_lt wanted
  have hgoal := hweights.goal wanted
  have hstart : RelaxedCosts.Pass (asking m wanted) weights state [] [] (.start (asking m wanted) weights state) :=
    .start
  obtain ⟨-, -, hempty⟩ := RelaxedCosts.exists_pass_compute hq weights state
  refine ⟨fun fuel => (hstart.exists_drain fuel).imp fun _ h => h.1, fun log pending r h => h.drain_eq, hempty,
    fun log target rest r h => h.waitingOf_pos hq htotal hgoal,
    fun log pending r h => h.pairwise hq htotal hgoal,
    RelaxedCosts.isMaxCost_or hq (plain_asking m wanted) hgoal htotal, fun id hall hne hcap => ?_⟩
  exact RelaxedCosts.exists_supporter hq hgoal htotal hall hne hcap

/-- The lamp's goal costs what the switch does. -/
theorem pass_exact_lamp :
    (Draft.lamp [0]).build = .ok (Model.lamp [0]) ∧
      (asking (Model.lamp [0]) [0, 4]).IsMaxCost (build (Model.lamp [0])).weights (.ofList 2 []) 9 3 := by
  have hwanted : ∀ p ∈ [0, 4], CanWant (Model.lamp [0]) p := by
    rintro p (_ | ⟨_, _ | ⟨_, hp⟩⟩)
    · exact .inl (by decide)
    · exact .inr ⟨.compound 0, by decide, by decide⟩
    · exact absurd hp List.not_mem_nil
  obtain ⟨-, -, -, -, -, hexact, -⟩ := pass_exact (show (Draft.lamp [0]).build = .ok (Model.lamp [0]) from rfl) hwanted
    (weighs_build (by decide)) (.ofList 2 [])
  have hcost : (pricing (Model.lamp [0]) [0, 4] (build (Model.lamp [0])).weights (.ofList 2 [])).costOf 9 = 3 := by
    decide +kernel
  refine ⟨rfl, ?_⟩
  obtain ⟨-, hmax⟩ | ⟨hcap, -⟩ := hexact 9
  · rwa [hcost] at hmax
  · rw [hcost] at hcap
    exact absurd hcap (by decide)

end LandmarkCut

end HierPlan
