import HierPlan.Proofs.Landmark.Value

/-!
# Proofs/Landmark/Dominance — the value is no less than the max-cost

    before:  id costs c, the goal g          after a charge of a:  id costs min c (g - a) at least

Several operators of a cut may lie on one way to the goal, and a charge is taken off each of them.  They all cost
what the goal does, however, so above the first of them a node costs what is left of the goal already
(`LandmarkCut.closedUnder_keeps`).  **A round lowers the goal by its charge at most**
(`LandmarkCut.Round.IsRound.costOf_goal_le`), and since the rounds go on until the goal costs nothing, **the cuts
add up to the max-cost at least** (`LandmarkCut.maxCost_le_value`).
-/

namespace HierPlan

namespace LandmarkCut

variable {q : RelaxedGoal} {state : IdSet} {weights : Array Nat} {x : Round}

/-- A node is found at no less than it cost in a round, or than what the charge leaves of the goal. -/
def Round.Keeps (q : RelaxedGoal) (x : Round) (id c : Nat) : Prop :=
  min (x.costs.costOf id) (x.costs.costOf q.goal - x.charge) ≤ c

/-- A node of the cut weighs its charge less after a round, any other what it did. -/
theorem Round.Exact.next_eq (hx : x.Exact q) (id : Nat) :
    (id ∈ x.ops ∧ x.weights[id]?.getD 0 = x.next[id]?.getD 0 + x.charge) ∨
      (id ∉ x.ops ∧ x.next[id]?.getD 0 = x.weights[id]?.getD 0) := by
  have hpays := hx.pays id
  by_cases hid : id ∈ x.ops
  · rw [if_pos hid] at hpays
    exact .inl ⟨hid, hpays.symm⟩
  · rw [if_neg hid, Nat.add_zero] at hpays
    exact .inr ⟨hid, hpays⟩

/-- **Under the weights that a round leaves, what keeps its cost or what is left of the goal is closed under the
rules.** -/
theorem closedUnder_keeps (hx : x.Exact q) (hs : x.costs.Solved q x.weights state) :
    RelaxedCosts.ClosedUnder q x.next state (x.Keeps q) := by
  refine ⟨fun f hf hkind => ?_, fun id hor p hp c hpc => ?_, fun id hall hid hnil => ?_,
    fun id hall p hp c _ hfed => ?_⟩
  · exact (Nat.min_le_left ..).trans_eq (hs.facts f hf hkind)
  · exact (min_le_min_right _ (hs.least id hor p hp)).trans hpc
  · have halone := hs.alone id hall hid hnil
    unfold Round.Keeps
    obtain ⟨hin, hnext⟩ | ⟨-, hnext⟩ := hx.next_eq id
    · have htight := hx.tight id hin
      omega
    · omega
  · by_cases hpriced : ∀ p' ∈ q.feeders id, x.costs.costOf p' < costCap
    · obtain ⟨s, hin, -, hsum, -⟩ := hs.supported id hall (List.ne_nil_of_mem hp) hpriced
      obtain ⟨c', hc', hkeeps⟩ := hfed s hin
      unfold Round.Keeps at hkeeps ⊢
      -- a node of the cut costs what the goal does, so what is left of it is left of the goal
      obtain ⟨hcut, hnext⟩ | ⟨-, hnext⟩ := hx.next_eq id
      · have htight := hx.tight id hcut
        omega
      · omega
    · obtain ⟨p', hp'⟩ := not_forall.mp hpriced
      obtain ⟨hin, hnot⟩ := Classical.not_imp.mp hp'
      obtain ⟨c', hc', hkeeps⟩ := hfed p' hin
      have hcap := hs.le_cap q.goal
      unfold Round.Keeps at hkeeps ⊢
      omega

/-- **A round lowers the goal by its charge at most.** -/
theorem Round.IsRound.costOf_goal_le (hx : x.IsRound q state) (hq : q.Sound) (hfits : q.Fits x.weights) :
    x.costs.costOf q.goal ≤ (RelaxedCosts.compute q x.next state).costOf q.goal + x.charge := by
  have hs : x.costs.Solved q x.weights state := hx.costs ▸ hfits.solved hq state
  have hnext : q.Fits x.next := (lighter_discount _ _ _).fits hfits
  have hkeeps : x.Keeps q q.goal ((RelaxedCosts.compute q x.next state).costOf q.goal) := by
    refine RelaxedCosts.holds_of_lt_cap hq hnext.total hnext.goal (closedUnder_keeps (hx.exact hq hfits) hs) ?_
    refine hfits.lt_cap_of_lt_cap hnext hq ?_
    exact hx.costs ▸ (hs.le_cap q.goal).lt_of_ne hx.below
  unfold Round.Keeps at hkeeps
  omega

/-- **A series charges all that the goal comes to cost less.** -/
theorem Series.costOf_goal_le (hq : q.Sound) {xs : List Round} {last : Array Nat}
    (h : Series q state weights xs last) (hfits : q.Fits weights) :
    (RelaxedCosts.compute q weights state).costOf q.goal ≤
      charges xs + (RelaxedCosts.compute q last state).costOf q.goal := by
  induction h with
  | done => exact Nat.le_add_left ..
  | @next x xs last round rest ih =>
    have hrest := ih ((lighter_discount _ _ _).fits hfits)
    have hstep := round.costOf_goal_le hq hfits
    rw [round.costs] at hstep
    rw [charges_cons]
    omega

/-- A max-cost is what the goal costs. -/
theorem costOf_goal_of_maxCost? {k : LandmarkCut} {m : Model} {network : List Task} {c : Nat}
    (h : k.maxCost? m state network = some c) :
    (RelaxedCosts.compute (k.query m network) k.weights state).costOf k.goal = c := by
  unfold maxCost? at h
  dsimp only at h
  split at h
  · cases h
  · exact Option.some.inj h

/-- **The cuts for a network add up to its max-cost at least**, and each round lowers what the goal costs by its
charge at most. -/
theorem maxCost_le_value {d : Draft} {m : Model} {network : List Task} (hd : d.build = .ok m)
    (hcost : m.totalCost < costCap) (hn : ∀ t ∈ network, m.HasTask t) (state : IdSet) :
    (∀ c, (build m).maxCost? m state network = some c →
      ∃ v, ((build m).compute m state network).value = some v ∧ c ≤ v) ∧
    ((build m).compute m state network).cuts = (roundsOf m state network).map (·.charge) ∧
    ∀ x ∈ roundsOf m state network, x.IsRound (question m network) state ∧
      (RelaxedCosts.compute (question m network) x.weights state).costOf (View.goalId m) ≤
        (RelaxedCosts.compute (question m network) x.next state).costOf (View.goalId m) + x.charge := by
  have hw := Draft.wellFormed_of_build hd
  have hq := sound_query hw hn
  have hself : Lighter (build m).weights (build m).weights := .refl _
  obtain ⟨last, hseries, hend, hrounds⟩ := exists_series_roundsOf hw hn hcost state
  obtain ⟨hlast, hall⟩ := hseries.of_mem
  have houtcome := hrounds _ (Nat.lt_succ_of_le (card_paidOperators_le m))
  change (build m).compute m state network = _ at houtcome
  have hcap := costOf_goal_eq_cap_iff hw hn hcost hlast state
  refine ⟨fun c hc => ?_, by rw [houtcome], fun x hx => ?_⟩
  · have hreached : (RelaxedCosts.compute (question m network) last state).costOf (View.goalId m) ≠ costCap :=
      fun he => nomatch (hcap.mp he).symm.trans hc
    refine ⟨charges (roundsOf m state network), by rw [houtcome]; exact if_neg hreached, ?_⟩
    have hzero := ((round?_eq_none_iff hq (plain_asking m _) (fits_of_lighter hcost hlast)).mp hend).resolve_left
      hreached
    have hle := hseries.costOf_goal_le hq (fits_of_lighter hcost hself)
    rw [hzero, Nat.add_zero] at hle
    exact (costOf_goal_of_maxCost? hc).symm.trans_le hle
  · obtain ⟨hround, hl⟩ := hall x hx
    exact ⟨hround, hround.costs ▸ hround.costOf_goal_le hq (fits_of_lighter hcost hl)⟩

/-- The job has a max-cost of 5, since the parts of doing it apart do not add up there; the cuts do no worse. -/
theorem maxCost_le_value_forked :
    Draft.forked.build = .ok .forked ∧ Model.totalCost .forked < costCap ∧
      (∀ t ∈ Model.forked.network, Model.HasTask .forked t) ∧
      (build .forked).maxCost? .forked Model.forked.init Model.forked.network = some 5 ∧
      ∃ v, ((build .forked).compute .forked Model.forked.init Model.forked.network).value = some v ∧ 5 ≤ v := by
  have hd : Draft.forked.build = .ok .forked := rfl
  have hcost : Model.totalCost .forked < costCap := by decide
  have hn : ∀ t ∈ Model.forked.network, Model.HasTask .forked t := by decide
  have hmax : (build .forked).maxCost? .forked Model.forked.init Model.forked.network = some 5 := by
    decide +kernel
  exact ⟨hd, hcost, hn, hmax, (maxCost_le_value hd hcost hn Model.forked.init).1 5 hmax⟩

end LandmarkCut

end HierPlan
