import HierPlan.Proofs.Landmark.WalkBack

/-!
# Proofs/Landmark/Rounds — what the rounds of cutting add up to

    weights ──round──▸ weights less the charge on the cut ──round──▸ … ──▸ the goal costs nothing

`LandmarkCut.trace` lists the rounds, and **the value is the sum of their charges, capped**
(`LandmarkCut.rounds_eq`).  Weights only fall, so a goal that can be reached stays below the cap in
every round (`LandmarkCut.cost_goal_lt_cap`): **a network that can be carried out has a value**
(`LandmarkCut.compute_of_execution`).
-/

namespace HierPlan

namespace LandmarkCut

/-- A round: weights, the costs under them, the cut, and what it is charged. -/
structure Round where
  weights : Array Nat
  costs : RelaxedCosts
  ops : List Nat
  charge : Nat

variable {q : RelaxedGoal} {state : IdSet} {weights : Array Nat} {x : Round}

/-- The round under some weights, unless the goal costs nothing, cannot be reached, or has no cut. -/
def round? (q : RelaxedGoal) (state : IdSet) (weights : Array Nat) : Option Round :=
  let r := RelaxedCosts.compute q weights state
  if r.costOf q.goal = costCap ∨ r.costOf q.goal = 0 then none
  else
    let ops := cut q weights r
    ((ops.map fun id => weights[id]?.getD 0).min?).map fun least => ⟨weights, r, ops, least⟩

/-- The weights after a round. -/
def Round.next (x : Round) : Array Nat := discount x.weights x.ops x.charge

/-- The rounds from some weights on, at most `fuel` of them. -/
def trace (q : RelaxedGoal) (state : IdSet) : (fuel : Nat) → (weights : Array Nat) → List Round
  | 0, _ => []
  | fuel + 1, weights =>
    match round? q state weights with
    | none => []
    | some x => x :: trace q state fuel x.next

/-- A round in full. -/
structure Round.IsRound (q : RelaxedGoal) (state : IdSet) (x : Round) : Prop where
  costs : x.costs = RelaxedCosts.compute q x.weights state
  ops : x.ops = cut q x.weights x.costs
  charge : (x.ops.map fun id => x.weights[id]?.getD 0).min? = some x.charge
  below : x.costs.costOf q.goal ≠ costCap
  positive : x.costs.costOf q.goal ≠ 0

theorem round?_eq_some : round? q state weights = some x ↔ x.weights = weights ∧ x.IsRound q state := by
  unfold round?
  constructor
  · intro h
    dsimp only at h
    split at h
    · cases h
    · rename_i hcost
      obtain ⟨least, hleast, rfl⟩ := Option.map_eq_some_iff.mp h
      exact ⟨rfl, rfl, rfl, hleast, fun he => hcost (.inl he), fun he => hcost (.inr he)⟩
  · rintro ⟨rfl, hcosts, hops, hcharge, hbelow, hpositive⟩
    obtain ⟨weights, costs, ops, charge⟩ := x
    dsimp only at hcosts hops hcharge hbelow hpositive ⊢
    subst hcosts hops
    rw [if_neg (not_or.mpr ⟨hbelow, hpositive⟩), hcharge]
    rfl

/-! ## Weights only fall -/

/-- Some weights are nowhere above others. -/
def Lighter (w v : Array Nat) : Prop := ∀ id : Nat, w[id]?.getD 0 ≤ v[id]?.getD 0

theorem Lighter.refl (w : Array Nat) : Lighter w w := fun _ => le_rfl

theorem Lighter.trans {u v w : Array Nat} (h : Lighter u v) (h' : Lighter v w) : Lighter u w :=
  fun id => (h id).trans (h' id)

theorem Lighter.totalWeight_le {w v : Array Nat} (h : Lighter w v) :
    q.totalWeight w ≤ q.totalWeight v := by
  refine List.sum_le_sum fun id _ => ?_
  split
  · exact h id
  · exact le_rfl

theorem getD_modify (w : Array Nat) (a n id : Nat) :
    (w.modify a (· - n))[id]?.getD 0 = if a = id then w[id]?.getD 0 - n else w[id]?.getD 0 := by
  rw [Array.getElem?_modify]
  split
  · cases w[id]? <;> simp
  · rfl

/-- A discount takes nothing but weight off. -/
theorem lighter_discount (w : Array Nat) (ids : List Nat) (n : Nat) : Lighter (discount w ids n) w := by
  induction ids generalizing w with
  | nil => exact .refl w
  | cons a ids ih =>
    intro id
    refine (ih (w.modify a (· - n)) id).trans ?_
    rw [getD_modify]
    split
    · exact Nat.sub_le _ _
    · exact le_rfl

/-- Each listed node loses the amount at least once. -/
theorem discount_le {ids : List Nat} {id : Nat} (w : Array Nat) (n : Nat) (h : id ∈ ids) :
    (discount w ids n)[id]?.getD 0 ≤ w[id]?.getD 0 - n := by
  induction ids generalizing w with
  | nil => exact absurd h List.not_mem_nil
  | cons a ids ih =>
    rcases List.mem_cons.mp h with rfl | hin
    · refine (lighter_discount (w.modify id (· - n)) ids n id).trans ?_
      rw [getD_modify, if_pos rfl]
    · refine (ih (w.modify a (· - n)) hin).trans (Nat.sub_le_sub_right ?_ n)
      rw [getD_modify]
      split
      · exact Nat.sub_le _ _
      · exact le_rfl

/-- **Every round of a trace is one, under weights no heavier than the first.** -/
theorem isRound_of_mem_trace {fuel : Nat} (h : x ∈ trace q state fuel weights) :
    x.IsRound q state ∧ Lighter x.weights weights := by
  induction fuel generalizing weights with
  | zero => exact absurd h List.not_mem_nil
  | succ fuel ih =>
    rw [trace] at h
    split at h
    · exact absurd h List.not_mem_nil
    · rename_i y hy
      obtain ⟨rfl, hround⟩ := round?_eq_some.mp hy
      rcases List.mem_cons.mp h with rfl | hin
      · exact ⟨hround, .refl _⟩
      · obtain ⟨hx, hlight⟩ := ih hin
        exact ⟨hx, hlight.trans (lighter_discount _ _ _)⟩

/-! ## The value -/

/-- What some rounds charge together. -/
def charges (xs : List Round) : Nat := (xs.map (·.charge)).sum

/-- **The value is what all rounds charge**, as long as the goal stays below the cap. -/
theorem rounds_eq {v : Array Nat}
    (hreach : ∀ w, Lighter w v → (RelaxedCosts.compute q w state).costOf q.goal ≠ costCap)
    (fuel : Nat) (hw : Lighter weights v) {total : Nat} (htotal : total ≤ costCap) (cuts : List Nat) :
    rounds q state fuel weights total cuts =
      ⟨some (min (total + charges (trace q state fuel weights)) costCap),
        cuts.reverse ++ (trace q state fuel weights).map (·.charge)⟩ := by
  have hend : (⟨some total, cuts.reverse⟩ : CutCosts) = ⟨some (min (total + charges []) costCap),
      cuts.reverse ++ ([] : List Round).map (·.charge)⟩ := by
    rw [charges, List.map_nil, List.sum_nil, Nat.add_zero, Nat.min_eq_left htotal, List.append_nil]
  induction fuel generalizing weights total cuts with
  | zero => exact hend
  | succ fuel ih =>
    rw [rounds, trace, round?]
    dsimp only
    rw [if_neg (hreach weights hw)]
    by_cases hcost : (RelaxedCosts.compute q weights state).costOf q.goal = 0
    · rw [if_pos hcost, if_pos (.inr hcost)]
      exact hend
    · rw [if_neg hcost, if_neg (not_or.mpr ⟨hreach weights hw, hcost⟩)]
      split
      · rename_i hnone
        rw [hnone]
        exact hend
      · rename_i least hleast
        rw [hleast]
        have hlight : Lighter (discount weights (cut q weights (RelaxedCosts.compute q weights state))
            least) v := (lighter_discount _ _ _).trans hw
        have hcap := cappedAdd_le_cap total least
        rw [ih hlight hcap _ (by
          rw [charges, List.map_nil, List.sum_nil, Nat.add_zero, Nat.min_eq_left hcap,
            List.append_nil])]
        simp only [Option.map_some, charges, List.map_cons, List.sum_cons, Round.next, cappedAdd,
          List.reverse_cons, List.append_assoc, List.singleton_append]
        congr 2
        omega

/-! ## What a plan pays for -/

section Plan

variable {m : Model} {plan : List Nat}

/-- Whether a plan applies an operator of the cut. -/
def Round.hits (m : Model) (plan : List Nat) (x : Round) : Bool :=
  plan.any fun i => x.ops.contains (m.operatorId i)

/-- What the operators of a plan weigh together. -/
def load (m : Model) (weights : Array Nat) (plan : List Nat) : Nat :=
  (plan.map fun i => weights[m.operatorId i]?.getD 0).sum

theorem Lighter.load_le {w v : Array Nat} (h : Lighter w v) (m : Model) (plan : List Nat) :
    load m w plan ≤ load m v plan :=
  List.sum_le_sum fun i _ => h (m.operatorId i)

/-- No operator of a cut weighs less than its charge. -/
theorem Round.IsRound.charge_le (h : x.IsRound q state) {id : Nat} (hid : id ∈ x.ops) :
    x.charge ≤ x.weights[id]?.getD 0 :=
  (List.min?_eq_some_iff.mp h.charge).2 _ (List.mem_map_of_mem hid)

/-- **A plan that is hit pays the charge.** -/
theorem Round.IsRound.load_next (h : x.IsRound q state) (hit : x.hits m plan = true) :
    load m x.next plan + x.charge ≤ load m x.weights plan := by
  obtain ⟨i, hi, hin⟩ := List.any_eq_true.mp hit
  have hmem : m.operatorId i ∈ x.ops := List.contains_iff_mem.mp hin
  obtain ⟨before, after, rfl⟩ := List.append_of_mem hi
  have hbefore := (lighter_discount x.weights x.ops x.charge).load_le m before
  have hafter := (lighter_discount x.weights x.ops x.charge).load_le m after
  have hless := discount_le x.weights x.charge hmem
  have hcharge := h.charge_le hmem
  simp only [load, Round.next, List.map_append, List.map_cons, List.sum_append, List.sum_cons] at *
  omega

/-- **The rounds that hit a plan charge no more than it weighs.** -/
theorem charges_hit_le (fuel : Nat) :
    charges ((trace q state fuel weights).filter (·.hits m plan)) ≤ load m weights plan := by
  induction fuel generalizing weights with
  | zero => exact Nat.zero_le _
  | succ fuel ih =>
    rw [trace]
    split
    · exact Nat.zero_le _
    · rename_i y hy
      obtain ⟨rfl, hround⟩ := round?_eq_some.mp hy
      cases hit : y.hits m plan with
      | true =>
        rw [List.filter_cons_of_pos hit, charges, List.map_cons, List.sum_cons, Nat.add_comm]
        exact (Nat.add_le_add_right ih _).trans (hround.load_next hit)
      | false =>
        rw [List.filter_cons_of_neg (by rw [hit]; exact Bool.false_ne_true)]
        exact ih.trans (Lighter.load_le (lighter_discount _ _ _) m plan)

/-- What rounds charge is what those that hit and those that miss charge. -/
theorem charges_eq (xs : List Round) (m : Model) (plan : List Nat) :
    charges xs = charges (xs.filter (·.hits m plan)) + charges (xs.filter fun x => !x.hits m plan) := by
  induction xs with
  | nil => rfl
  | cons x xs ih =>
    cases hit : x.hits m plan <;>
      simp only [charges, List.filter_cons, hit, List.map_cons, List.sum_cons, Bool.not_true,
        Bool.not_false, if_true, Bool.false_eq_true, if_false] at ih ⊢ <;>
      omega

end Plan

/-! ## Networks that can be carried out -/

section Carried

variable {m : Model} {network : List Task} {plan : List Nat} {t : IdSet}

/-- At first a plan weighs what it costs. -/
theorem load_weights (hplan : ∀ i ∈ plan, i < m.operators.size) :
    load m (build m).weights plan = m.planCost plan := by
  induction plan with
  | nil => rfl
  | cons i plan ih =>
    obtain ⟨hi, hrest⟩ := List.forall_mem_cons.mp hplan
    rw [load, List.map_cons, List.sum_cons, getD_weights_operator hi, ← load, ih hrest]
    rfl

/-- Weights no heavier than at first leave the goal without a weight of its own. -/
theorem Lighter.weight_goal (hl : Lighter weights (build m).weights) : weights[View.goalId m]?.getD 0 = 0 :=
  Nat.eq_zero_of_le_zero ((hl (View.goalId m)).trans_eq getD_weights_goal)

/-- Weights no heavier than at first have costs that solve the equations. -/
theorem solved_of_lighter (hw : m.WellFormed) (hn : ∀ x ∈ network, m.HasTask x)
    (hcost : m.totalCost < costCap) (hl : Lighter weights (build m).weights) :
    (RelaxedCosts.compute (question m network) weights state).Solved (question m network) weights
      state :=
  RelaxedCosts.solved_compute (sound_query hw hn)
    ((hl.totalWeight_le.trans totalWeight_le).trans_lt hcost) hl.weight_goal

/-- **A goal that can be reached stays below the cap.** -/
theorem cost_goal_lt_cap (hw : m.WellFormed) (hn : ∀ x ∈ network, m.HasTask x)
    (hcost : m.totalCost < costCap) (hwidth : state.width = m.facts.size)
    (hexec : Execution m state network plan t) (hgoal : ∀ f ∈ m.goal, f ∈ t)
    (hl : Lighter weights (build m).weights) :
    (RelaxedCosts.compute (question m network) weights state).costOf (View.goalId m) < costCap := by
  have hsolved : (RelaxedCosts.compute (question m network) weights state).Solved
      (question m network) weights state := solved_of_lighter hw hn hcost hl
  exact hsolved.below _ (RelaxedGoal.needsAll_goal _) (sound_query hw hn).goal
    (wanted_lt_cap hw hsolved hwidth hn hexec hgoal)

/-- The rounds for a state and a network. -/
def roundsOf (m : Model) (state : IdSet) (network : List Task) : List Round :=
  trace (question m network) state (m.operators.size + 1) (build m).weights

/-- **A network that can be carried out has a value**, the capped sum of its cuts. -/
theorem compute_of_execution (hw : m.WellFormed) (hn : ∀ x ∈ network, m.HasTask x)
    (hcost : m.totalCost < costCap) (hwidth : state.width = m.facts.size)
    (hexec : Execution m state network plan t) (hgoal : ∀ f ∈ m.goal, f ∈ t) :
    (build m).compute m state network =
      ⟨some (min (charges (roundsOf m state network)) costCap), (roundsOf m state network).map (·.charge)⟩ := by
  have hreach : ∀ w, Lighter w (build m).weights →
      (RelaxedCosts.compute (question m network) w state).costOf (View.goalId m) ≠ costCap :=
    fun w hl => (cost_goal_lt_cap hw hn hcost hwidth hexec hgoal hl).ne
  have hself : Lighter (build m).weights (build m).weights := .refl _
  have hrounds := rounds_eq (q := question m network) hreach (m.operators.size + 1) hself
    (Nat.zero_le costCap) []
  rw [Nat.zero_add] at hrounds
  exact hrounds

end Carried

end LandmarkCut

end HierPlan
