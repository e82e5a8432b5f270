import HierPlan.Proofs.Landmark.Rounds

/-!
# Proofs/Landmark/Bound — how far the value is a lower bound

    charges = charges of cuts a plan hits + charges of cuts it misses
              └── at most the plan's cost      └── need a dearer achiever (Round.LeavesOut)

A plan pays for every cut it hits.  It can miss one: a walk back follows only those achievers of a node
whose cost is the node's own, and the plan may use a dearer one.  **So the value is at most the cost of a
plan and the charges of the cuts the plan misses, and a cut is missed only where an achiever that can be
reached was left out** (`LandmarkCut.value_le_of_execution`).
-/

namespace HierPlan

namespace LandmarkCut

/-- A walk back comes to a node that needs any feeder and leaves out one that can be reached, because it
costs more than the node. -/
def Round.LeavesOut (q : RelaxedGoal) (x : Round) : Prop :=
  ∃ id p, Traced q x.weights x.costs id ∧ q.needsAll id = false ∧ p ∈ q.feeders id ∧
    0 < x.costs.costOf id ∧ x.costs.costOf id < x.costs.costOf p ∧ x.costs.costOf p < costCap

variable {m : Model} {state t : IdSet} {network : List Task} {plan : List Nat} {x : Round}

/-- The rounds that charge a plan nothing. -/
def missed (m : Model) (state : IdSet) (network : List Task) (plan : List Nat) : List Round :=
  (roundsOf m state network).filter fun x => !x.hits m plan

/-- A node that weighs something in a round is an operator. -/
theorem exists_of_weight_pos {weights : Array Nat} (hl : Lighter weights (build m).weights) {id : Nat}
    (h : 0 < weights[id]?.getD 0) : ∃ i < m.operators.size, id = m.operatorId i := by
  have hpos := h.trans_le (hl id)
  rw [getD_weights] at hpos
  split at hpos
  · rename_i hin
    exact ⟨id - m.facts.size, by omega, by rw [Model.operatorId]; omega⟩
  · exact absurd hpos (Nat.lt_irrefl 0)

/-- **What is reached without coming by a walk back is closed under a plan that is missed**, unless an
achiever is left out. -/
theorem closes_untraced (hw : m.WellFormed) (hn : ∀ y ∈ network, m.HasTask y)
    (hx : x.IsRound (question m network) state) (hl : Lighter x.weights (build m).weights)
    (hs : x.costs.Solved (question m network) x.weights state)
    (hcap : x.costs.costOf (View.goalId m) < costCap) (hmiss : x.hits m plan = false)
    (hnone : ¬ x.LeavesOut (question m network)) :
    m.Closes (View.composition.subtaskId m) (· ∈ plan) fun id => x.costs.costOf id < costCap ∧
      (Traced (question m network) x.weights x.costs id → x.costs.costOf id = 0) := by
  refine View.closes_of_feeds (v := .composition) hw (fun he => nomatch he) rfl
    (fun id p l hlabel hr hp hin => ?_) fun id l hlabel hr hk hused hin => ?_
  · have hle := cost_le_of_feeds hw hs hlabel hr hp
    refine ⟨hle.trans_lt hin.1, fun htraced => by_contra fun hcost => ?_⟩
    have hgoal : l.kind ≠ .goal := fun he => hr (by rw [rule_of_label hlabel, he])
    have hor : (question m network).needsAll id = false := by
      rw [needsAll_of_label hlabel hgoal]
      exact beq_eq_false_iff_ne.mpr hr
    have hfeeder : p ∈ (question m network).feeders id := (mem_feeders hw hlabel hgoal).mpr hp
    have heq : x.costs.costOf p = x.costs.costOf id := by
      refine (Nat.eq_or_lt_of_le hle).elim Eq.symm fun hlt => absurd ?_ hnone
      exact ⟨id, p, htraced, hor, hfeeder, Nat.pos_of_ne_zero hcost, hlt, hin.1⟩
    have hfollow : p ∈ follow (question m network) x.weights x.costs id :=
      mem_follow_any hor (fun n hnode => rule_ne_given (View.label_of_node? hnode)) hcost hfeeder heq
    exact hcost (heq ▸ hin.2 (htraced.tail hfollow))
  · have hid := lt_of_isSome_label (Option.isSome_iff_exists.mpr ⟨l, hlabel⟩)
    have hall : (question m network).needsAll id = true := by
      rw [needsAll_of_label hlabel hk, hr]
      rfl
    have hbelow := hs.below id hall hid fun p hp => (hin p ((mem_feeders hw hlabel hk).mp hp)).1
    refine ⟨hbelow, fun htraced => by_contra fun hcost => ?_⟩
    by_cases hweight : 0 < x.weights[id]?.getD 0
    · obtain ⟨i, hi, rfl⟩ := exists_of_weight_pos hl hweight
      have hcollect : collects (question m network) x.weights x.costs (m.operatorId i) = true :=
        collects_iff.mpr ⟨hcost, goalId_ne_of_label hlabel hk, hall, hweight⟩
      have hcut : m.operatorId i ∈ x.ops := hx.ops ▸ mem_cut (sound_query hw hn) hs
        hl.weight_goal hcap htraced hcollect
      have hhit : x.hits m plan = true :=
        List.any_eq_true.mpr ⟨i, hused i hi rfl, List.contains_iff_mem.mpr hcut⟩
      rw [hmiss] at hhit
      cases hhit
    · obtain ⟨p, hfollow, hp, heq⟩ := mem_follow_all hs hid hall (Nat.eq_zero_of_not_pos hweight) hcost
        hbelow
      exact hcost (heq ▸ (hin p ((mem_feeders hw hlabel hk).mp hp)).2 (htraced.tail hfollow))

/-- **A cut that a plan misses leaves an achiever out.** -/
theorem leavesOut_of_missed (hw : m.WellFormed) (hn : ∀ y ∈ network, m.HasTask y)
    (hcost : m.totalCost < costCap) (hwidth : state.width = m.facts.size)
    (hexec : Execution m state network plan t) (hgoal : ∀ f ∈ m.goal, f ∈ t)
    (hx : x.IsRound (question m network) state) (hl : Lighter x.weights (build m).weights)
    (hmiss : x.hits m plan = false) : x.LeavesOut (question m network) := by
  have hs : x.costs.Solved (question m network) x.weights state :=
    hx.costs ▸ solved_of_lighter hw hn hcost hl
  have hcap : x.costs.costOf (View.goalId m) < costCap :=
    hx.costs ▸ cost_goal_lt_cap hw hn hcost hwidth hexec hgoal hl
  by_contra hnone
  obtain ⟨hend, htasks⟩ := hexec.closes hw (closes_untraced hw hn hx hl hs hcap hmiss hnone)
    fun f hf => by
      rw [cost_fact hs hwidth hf]
      exact ⟨by decide, fun _ => rfl⟩
  obtain ⟨p, hfollow, hp, heq⟩ := mem_follow_all hs (sound_query hw hn).goal (RelaxedGoal.needsAll_goal _)
    hl.weight_goal hx.positive hcap
  have hzero : x.costs.costOf p = 0 := by
    have htraced : Traced (question m network) x.weights x.costs p := .tail .refl hfollow
    change p ∈ (question m network).feeders (View.goalId m) at hp
    rw [feeders_goal, List.mem_append, IdSet.mem_toList, List.mem_map] at hp
    rcases hp with hp | ⟨y, hy, rfl⟩
    · exact (hend p (hgoal p hp)).2 htraced
    · rw [taskNode_eq (hn y hy)] at htraced ⊢
      exact (htasks y hy).2 htraced
  exact hx.positive (heq ▸ hzero)

/-- **The value is at most the cost of a plan and what the cuts it misses charge**, and every cut that is
missed leaves an achiever out. -/
theorem value_le_of_execution {d : Draft} (hd : d.build = .ok m) (hcost : m.totalCost < costCap)
    (hwidth : state.width = m.facts.size) (hn : ∀ y ∈ network, m.HasTask y)
    (hexec : Execution m state network plan t) (hgoal : ∀ f ∈ m.goal, f ∈ t) :
    ((build m).compute m state network).cuts = (roundsOf m state network).map (·.charge) ∧
      ∃ v, ((build m).compute m state network).value = some v ∧
        v ≤ m.planCost plan + charges (missed m state network plan) ∧
        ∀ x ∈ missed m state network plan, x.LeavesOut (question m network) := by
  have hw := Draft.wellFormed_of_build hd
  have hcompute := compute_of_execution hw hn hcost hwidth hexec hgoal
  refine ⟨by rw [hcompute], _, by rw [hcompute], ?_, fun x hx => ?_⟩
  · have hhit : charges ((roundsOf m state network).filter (·.hits m plan)) ≤
        load m (build m).weights plan := charges_hit_le _
    rw [load_weights hexec.lt_of_mem_plan] at hhit
    refine (Nat.min_le_left _ _).trans ?_
    rw [charges_eq _ m plan]
    exact Nat.add_le_add_right hhit _
  · obtain ⟨hin, hmiss⟩ := List.mem_filter.mp hx
    obtain ⟨hround, hlight⟩ := isRound_of_mem_trace hin
    exact leavesOut_of_missed hw hn hcost hwidth hexec hgoal hround hlight (Bool.not_eq_true' _ ▸ hmiss)

end LandmarkCut

/-! ## A job done apart or together

Done apart, the job takes two operators at 5 each; done together, one at 6.  The method for two costs 5
at first, so no cut ever looks at the one at 6. -/

/-- The job as declared; no facts are needed. -/
def Draft.forked : Draft where
  operators := #[⟨"left", 5, [], [], [], []⟩, ⟨"right", 5, [], [], [], []⟩, ⟨"both", 6, [], [], [], []⟩]
  compounds := #["job"]
  methods := #[⟨"apart", 0, [], [], [.operator 0, .operator 1]⟩, ⟨"together", 0, [], [], [.operator 2]⟩]
  network := [.compound 0]

/-- The job as built. -/
def Model.forked : Model where
  facts := #[]
  operators := #[⟨0, "left", 5, .ofList 0 [], .ofList 0 [], .ofList 0 [], .ofList 0 []⟩,
    ⟨1, "right", 5, .ofList 0 [], .ofList 0 [], .ofList 0 [], .ofList 0 []⟩,
    ⟨2, "both", 6, .ofList 0 [], .ofList 0 [], .ofList 0 [], .ofList 0 []⟩]
  compounds := #[⟨3, "job", [0, 1]⟩]
  methods := #[⟨4, "apart", 0, .ofList 0 [], .ofList 0 [], [.operator 0, .operator 1]⟩,
    ⟨5, "together", 0, .ofList 0 [], .ofList 0 [], [.operator 2]⟩]
  init := .ofList 0 []
  goal := .ofList 0 []
  network := [.compound 0]

/-- The job is done together. -/
theorem Execution.forked :
    Execution .forked Model.forked.init Model.forked.network [2] Model.forked.init :=
  have inside : Execution .forked Model.forked.init [.operator 2] [2] Model.forked.init :=
    .operator rfl rfl .done
  show Execution .forked Model.forked.init Model.forked.network ([2] ++ []) Model.forked.init from
    .compound (x := ⟨3, "job", [0, 1]⟩) (d := 1) rfl (by decide) rfl rfl inside .done

namespace LandmarkCut

/-- Done together, the job misses both cuts, and they make up for the difference. -/
theorem value_le_of_execution_forked :
    charges (missed .forked Model.forked.init Model.forked.network [2]) = 10 ∧
      ∃ v, ((build .forked).compute .forked Model.forked.init Model.forked.network).value = some v ∧
        v ≤ 6 + 10 := by
  have hcharges : charges (missed .forked Model.forked.init Model.forked.network [2]) = 10 := by
    decide +kernel
  obtain ⟨-, v, hv, hle, -⟩ := value_le_of_execution (d := .forked) (m := .forked) rfl (by decide) rfl
    (by decide) Execution.forked fun f hf => hf
  rw [hcharges] at hle
  exact ⟨hcharges, v, hv, hle⟩

/-- **The value is no lower bound**: the job is valued at 10, and done together it costs 6. -/
theorem value_not_le_planCost_forked :
    ¬ ∀ (d : Draft) (m : Model) (state t : IdSet) (network : List Task) (plan : List Nat),
      d.build = .ok m → m.totalCost < costCap → state.width = m.facts.size →
      (∀ y ∈ network, m.HasTask y) → Execution m state network plan t → (∀ f ∈ m.goal, f ∈ t) →
      ∃ v, ((build m).compute m state network).value = some v ∧ v ≤ m.planCost plan := by
  intro hclaim
  obtain ⟨v, hv, hle⟩ := hclaim .forked .forked Model.forked.init Model.forked.init
    Model.forked.network [2] rfl (by decide) rfl (by decide) Execution.forked fun f hf => hf
  have hvalue : ((build .forked).compute .forked Model.forked.init Model.forked.network).value =
      some 10 := by
    decide +kernel
  rw [hvalue, Option.some.injEq] at hv
  have hcost : Model.planCost .forked [2] = 6 := rfl
  omega

end LandmarkCut

end HierPlan
