import HierPlan.Proofs.Landmark.Bound
import HierPlan.Proofs.Landmark.Cut
import HierPlan.Proofs.Landmark.Pricing
import HierPlan.Proofs.Landmark.Reachable

/-!
# Proofs/Landmark/Value — the value is the sum of the cuts

    weights ──round──▸ less the charge on the cut ──round──▸ … ──▸ last weights: the goal costs nothing
       └── what all operators weigh falls by a charge at least, and one operator weighs nothing any more

`LandmarkCut.Round.Exact` is what a round does: its cut is not empty, costs what the goal does, and pays the charge
without any weight running out on the way.  Rounds that follow each other make a `LandmarkCut.Series`; as each of
them brings an operator down to nothing, **a series ends by itself, and it ends because the goal costs nothing**
(`LandmarkCut.exists_series`).  No weights make a node unreachable (`RelaxedGoal.Fits.lt_cap_iff`), and the charges
stay below what all operators cost, so the cap plays no part: **the value is the exact sum of the cuts**
(`LandmarkCut.compute_exact`).
-/

namespace HierPlan

/-- The operators that cost something. -/
def Model.paidOperators (m : Model) : Finset Nat :=
  (Finset.range m.operators.size).filter fun i => 0 < m.operatorCost i

/-- **What can be reached does not depend on the weights.** -/
theorem RelaxedGoal.Fits.lt_cap_of_lt_cap {q : RelaxedGoal} {v w : Array Nat} (hv : q.Fits v) (hw : q.Fits w)
    (hq : q.Sound) {state : IdSet} {id : Nat} (h : (RelaxedCosts.compute q v state).costOf id < costCap) :
    (RelaxedCosts.compute q w state).costOf id < costCap := by
  have hs := hw.solved hq state
  refine RelaxedCosts.holds_of_lt_cap hq hv.total hv.goal
    (P := fun id _ => (RelaxedCosts.compute q w state).costOf id < costCap) ?_ h
  refine ⟨fun f hf hkind => ?_, fun id hor p hp _ hin => (hs.least id hor p hp).trans_lt hin,
    fun id hall hid hnil => hs.below id hall hid fun p hp => absurd hp (hnil ▸ List.not_mem_nil),
    fun id hall p hp _ _ hin => hs.below id hall (RelaxedCosts.lt_size_of_feeders hq hp) fun p' hp' => ?_⟩
  · rw [hs.facts f hf hkind]
    decide
  · obtain ⟨_, -, hcap⟩ := hin p' hp'
    exact hcap

theorem RelaxedGoal.Fits.lt_cap_iff {q : RelaxedGoal} {v w : Array Nat} (hv : q.Fits v) (hw : q.Fits w)
    (hq : q.Sound) {state : IdSet} {id : Nat} : (RelaxedCosts.compute q v state).costOf id < costCap ↔
      (RelaxedCosts.compute q w state).costOf id < costCap :=
  ⟨hv.lt_cap_of_lt_cap hw hq, hw.lt_cap_of_lt_cap hv hq⟩

namespace LandmarkCut

variable {q : RelaxedGoal} {state : IdSet} {weights : Array Nat} {x : Round}

/-- Lighter weights can be summed as well. -/
theorem Lighter.fits {w v : Array Nat} (h : Lighter w v) (hv : q.Fits v) : q.Fits w :=
  ⟨h.totalWeight_le.trans_lt hv.total, Nat.eq_zero_of_le_zero ((h q.goal).trans_eq hv.goal)⟩

/-! ## One round -/

/-- **A discount takes the amount off each listed node once**, and nothing off any other. -/
theorem getD_discount {ids : List Nat} (hnodup : ids.Nodup) (w : Array Nat) (n id : Nat) :
    (discount w ids n)[id]?.getD 0 = if id ∈ ids then w[id]?.getD 0 - n else w[id]?.getD 0 := by
  induction ids generalizing w with
  | nil => rfl
  | cons a ids ih =>
    obtain ⟨hnot, hrest⟩ := List.nodup_cons.mp hnodup
    have hstep : (discount w (a :: ids) n)[id]?.getD 0 = (discount (w.modify a (· - n)) ids n)[id]?.getD 0 := rfl
    rw [hstep, ih hrest, getD_modify]
    by_cases ha : a = id
    · subst ha
      rw [if_neg hnot, if_pos rfl, if_pos List.mem_cons_self]
    · simp only [if_neg ha, List.mem_cons, Ne.symm ha, false_or]

/-- What a round does. -/
structure Round.Exact (q : RelaxedGoal) (x : Round) : Prop where
  /-- The walk back ended by itself. -/
  walked : ∀ fuel, q.queueBound ≤ fuel →
    walkBack q x.weights x.costs fuel [q.goal] (.empty q.graph.size) [] = x.ops
  nonempty : x.ops ≠ []
  nodup : x.ops.Nodup
  weighs : ∀ id ∈ x.ops, 0 < x.weights[id]?.getD 0
  /-- The cut costs what the goal does. -/
  tight : ∀ id ∈ x.ops, x.costs.costOf id = x.costs.costOf q.goal
  positive : 0 < x.charge
  /-- The cut pays the charge in full, and nothing else pays. -/
  pays : ∀ id, x.next[id]?.getD 0 + (if id ∈ x.ops then x.charge else 0) = x.weights[id]?.getD 0
  /-- A node of the cut weighs nothing any more. -/
  spends : ∃ id ∈ x.ops, x.next[id]?.getD 0 = 0

/-- **Every round is exact.** -/
theorem Round.IsRound.exact (hx : x.IsRound q state) (hq : q.Sound) (hfits : q.Fits x.weights) : x.Exact q := by
  have hs : x.costs.Solved q x.weights state := hx.costs ▸ hfits.solved hq state
  have hcap : x.costs.costOf q.goal < costCap := (hs.le_cap _).lt_of_ne hx.below
  have hmem : ∀ {id : Nat}, id ∈ x.ops ↔ Traced q x.weights x.costs id ∧ collects q x.weights x.costs id = true :=
    fun {id} => hx.ops ▸ mem_cut_iff hq hs hfits.goal hcap
  have hweighs : ∀ id ∈ x.ops, 0 < x.weights[id]?.getD 0 := fun id hid =>
    (collects_iff.mp (hmem.mp hid).2).2.2.2
  have hnodup : x.ops.Nodup := hx.ops ▸ nodup_cut hq hs hfits.goal hcap
  obtain ⟨least, hleast, hcharge⟩ := List.mem_map.mp (List.min?_eq_some_iff.mp hx.charge).1
  refine ⟨fun fuel hfuel => ?_, List.ne_nil_of_mem hleast, hnodup, hweighs,
    fun id hid => ((hmem.mp hid).1.costOf_eq hq hs hfits.goal hcap).2, ?_, fun id => ?_, least, hleast, ?_⟩
  · rw [walkBack_of_le hq hs hfits.goal hcap hfuel, hx.ops]
  · exact hcharge ▸ hweighs least hleast
  · rw [Round.next, getD_discount hnodup]
    split
    · rename_i hid
      exact Nat.sub_add_cancel (hx.charge_le hid)
    · exact Nat.add_zero _
  · rw [Round.next, getD_discount hnodup, if_pos hleast, hcharge, Nat.sub_self]

/-- **There is no round only where the goal costs nothing or cannot be reached.** -/
theorem round?_eq_none_iff (hq : q.Sound) (hplain : q.Plain) (hfits : q.Fits weights) :
    round? q state weights = none ↔ (RelaxedCosts.compute q weights state).costOf q.goal = costCap ∨
      (RelaxedCosts.compute q weights state).costOf q.goal = 0 := by
  unfold round?
  dsimp only
  split
  · rename_i hcost
    exact iff_of_true rfl hcost
  · rename_i hcost
    refine iff_of_false (fun hnone => ?_) hcost
    obtain ⟨hbelow, hpositive⟩ := not_or.mp hcost
    have hcap := ((hfits.solved hq state).le_cap q.goal).lt_of_ne hbelow
    rw [Option.map_eq_none_iff, List.min?_eq_none_iff, List.map_eq_nil_iff] at hnone
    exact cut_ne_nil hq hplain hfits hcap hpositive hnone

/-! ## Rounds that follow each other -/

/-- Rounds that lead from some weights to others. -/
inductive Series (q : RelaxedGoal) (state : IdSet) : Array Nat → List Round → Array Nat → Prop where
  | done {weights : Array Nat} : Series q state weights [] weights
  | next {x : Round} {xs : List Round} {last : Array Nat} (round : x.IsRound q state)
      (rest : Series q state x.next xs last) : Series q state x.weights (x :: xs) last

/-- One turn of the rounds. -/
theorem rounds_succ (fuel total : Nat) (cuts : List Nat) :
    rounds q state (fuel + 1) weights total cuts =
      match round? q state weights with
      | some x => rounds q state fuel x.next (cappedAdd total x.charge) (x.charge :: cuts)
      | none => ⟨if (RelaxedCosts.compute q weights state).costOf q.goal = costCap then none else some total,
          cuts.reverse⟩ := by
  rw [rounds, round?]
  dsimp only
  by_cases hcap : (RelaxedCosts.compute q weights state).costOf q.goal = costCap
  · rw [if_pos hcap, if_pos (.inl hcap)]
    dsimp only
    rw [if_pos hcap]
  · rw [if_neg hcap]
    by_cases hzero : (RelaxedCosts.compute q weights state).costOf q.goal = 0
    · rw [if_pos hzero, if_pos (.inr hzero)]
      dsimp only
      rw [if_neg hcap]
    · rw [if_neg hzero, if_neg (not_or.mpr ⟨hcap, hzero⟩)]
      cases ((cut q weights (RelaxedCosts.compute q weights state)).map fun id => weights[id]?.getD 0).min? with
      | none =>
        dsimp only [Option.map_none]
        rw [if_neg hcap]
      | some least => rfl

theorem charges_cons (x : Round) (xs : List Round) : charges (x :: xs) = x.charge + charges xs := by
  rw [charges, List.map_cons, List.sum_cons, ← charges]

/-- **Where a series ends, the rounds end**, whatever turns are left. -/
theorem Series.rounds_eq {xs : List Round} {last : Array Nat} (h : Series q state weights xs last)
    (hend : round? q state last = none) (fuel : Nat) (hfuel : xs.length < fuel) (total : Nat)
    (htotal : total + charges xs ≤ costCap) (cuts : List Nat) :
    rounds q state fuel weights total cuts =
      ⟨if (RelaxedCosts.compute q last state).costOf q.goal = costCap then none else some (total + charges xs),
        cuts.reverse ++ xs.map (·.charge)⟩ := by
  induction h generalizing fuel total cuts with
  | done =>
    obtain ⟨fuel, rfl⟩ := Nat.exists_eq_add_of_lt hfuel
    rw [rounds_succ, hend]
    simp [charges]
  | @next x xs last round rest ih =>
    obtain ⟨fuel, rfl⟩ := Nat.exists_eq_add_of_lt hfuel
    rw [charges_cons] at htotal
    have hexact : cappedAdd total x.charge = total + x.charge := by
      unfold cappedAdd
      omega
    have hrest : xs.length < (x :: xs).length + fuel := by
      rw [List.length_cons]
      omega
    rw [rounds_succ, round?_eq_some.mpr ⟨rfl, round⟩]
    dsimp only
    rw [hexact, ih hend _ hrest _ (by omega), charges_cons, Nat.add_assoc, List.reverse_cons, List.append_assoc,
      List.map_cons, List.singleton_append]

/-- Rounds of a series are rounds, under weights no heavier than the first. -/
theorem Series.of_mem {xs : List Round} {last : Array Nat} (h : Series q state weights xs last) :
    Lighter last weights ∧ ∀ x ∈ xs, x.IsRound q state ∧ Lighter x.weights weights := by
  induction h with
  | done => exact ⟨.refl _, fun x hx => absurd hx List.not_mem_nil⟩
  | @next x xs last round rest ih =>
    have hnext : Lighter x.next x.weights := lighter_discount _ _ _
    refine ⟨ih.1.trans hnext, List.forall_mem_cons.mpr
      ⟨⟨round, .refl _⟩, fun y hy => ?_⟩⟩
    obtain ⟨hround, hlight⟩ := ih.2 y hy
    exact ⟨hround, hlight.trans hnext⟩

/-! ## The rounds for a network -/

section Network

variable {m : Model} {network : List Task}

/-- The operators that still weigh something. -/
def weighing (m : Model) (w : Array Nat) : Finset Nat :=
  (Finset.range m.operators.size).filter fun i => 0 < w[m.operatorId i]?.getD 0

/-- At first these are the operators that cost something. -/
theorem weighing_weights (m : Model) : weighing m (build m).weights = m.paidOperators := by
  refine Finset.filter_congr fun i hi => ?_
  rw [getD_weights_operator (Finset.mem_range.mp hi)]

theorem card_paidOperators_le (m : Model) : m.paidOperators.card ≤ m.operators.size :=
  (Finset.card_filter_le ..).trans_eq (Finset.card_range _)

/-- Weights no heavier than at first can be summed. -/
theorem fits_of_lighter (hcost : m.totalCost < costCap) (hl : Lighter weights (build m).weights) :
    (question m network).Fits weights :=
  hl.fits ⟨totalWeight_le.trans_lt hcost, getD_weights_goal⟩

variable (hw : m.WellFormed) (hn : ∀ t ∈ network, m.HasTask t) (hcost : m.totalCost < costCap)

include hw hn hcost

/-- **Every round brings an operator down to nothing.** -/
theorem Round.IsRound.card_weighing_lt (hx : x.IsRound (question m network) state)
    (hl : Lighter x.weights (build m).weights) : (weighing m x.next).card < (weighing m x.weights).card := by
  have hexact := hx.exact (sound_query hw hn) (fits_of_lighter hcost hl)
  obtain ⟨id, hid, hzero⟩ := hexact.spends
  obtain ⟨i, hi, rfl⟩ := exists_of_weight_pos hl (hexact.weighs id hid)
  refine Finset.card_lt_card ((Finset.ssubset_iff_of_subset fun k hk => ?_).mpr ⟨i, ?_, ?_⟩)
  · obtain ⟨hrange, hpos⟩ := Finset.mem_filter.mp hk
    exact Finset.mem_filter.mpr ⟨hrange, hpos.trans_le (lighter_discount _ _ _ _)⟩
  · exact Finset.mem_filter.mpr ⟨Finset.mem_range.mpr hi, hexact.weighs _ hid⟩
  · exact fun hin => (Finset.mem_filter.mp hin).2.ne' hzero

/-- **What operators weigh together falls by the charge at least.** -/
theorem Round.IsRound.charge_add_le (hx : x.IsRound (question m network) state)
    (hl : Lighter x.weights (build m).weights) :
    x.charge + operatorsTotal m x.next ≤ operatorsTotal m x.weights := by
  have hexact := hx.exact (sound_query hw hn) (fits_of_lighter hcost hl)
  obtain ⟨id, hid⟩ := List.exists_mem_of_ne_nil _ hexact.nonempty
  obtain ⟨i, hi, rfl⟩ := exists_of_weight_pos hl (hexact.weighs id hid)
  have hit : x.hits m (List.range m.operators.size) = true :=
    List.any_eq_true.mpr ⟨i, List.mem_range.mpr hi, List.contains_iff_mem.mpr hid⟩
  rw [Nat.add_comm]
  exact hx.load_next hit

/-- **A trace with enough turns is a series that ends by itself.** -/
theorem exists_series (fuel : Nat) (hl : Lighter weights (build m).weights)
    (hfuel : (weighing m weights).card < fuel) :
    ∃ last, Series (question m network) state weights (trace (question m network) state fuel weights) last ∧
      round? (question m network) state last = none := by
  induction fuel generalizing weights with
  | zero => exact absurd hfuel (Nat.not_lt_zero _)
  | succ fuel ih =>
    rw [trace]
    cases hx : round? (question m network) state weights with
    | none => exact ⟨weights, .done, hx⟩
    | some x =>
      obtain ⟨rfl, hround⟩ := round?_eq_some.mp hx
      have hless := hround.card_weighing_lt hw hn hcost hl
      have hnext : Lighter x.next (build m).weights := (lighter_discount _ _ _).trans hl
      obtain ⟨last, hseries, hend⟩ := ih hnext (by omega)
      exact ⟨last, .next hround hseries, hend⟩

/-- A series has no more rounds than operators that weigh something, and charges no more than they weigh. -/
theorem Series.bounded {xs : List Round} {last : Array Nat}
    (h : Series (question m network) state weights xs last) (hl : Lighter weights (build m).weights) :
    xs.length ≤ (weighing m weights).card ∧ charges xs ≤ operatorsTotal m weights := by
  induction h with
  | done => exact ⟨Nat.zero_le _, Nat.zero_le _⟩
  | @next x xs last round rest ih =>
    have hnext : Lighter x.next (build m).weights := (lighter_discount _ _ _).trans hl
    obtain ⟨hlength, hcharges⟩ := ih hnext
    have hless := round.card_weighing_lt hw hn hcost hl
    have hpaid := round.charge_add_le hw hn hcost hl
    refine ⟨by rw [List.length_cons]; omega, ?_⟩
    rw [charges_cons]
    omega

/-- **The rounds for a network make a series, and with any number of turns beyond it they have the same outcome.** -/
theorem exists_series_roundsOf (state : IdSet) :
    ∃ last, Series (question m network) state (build m).weights (roundsOf m state network) last ∧
      round? (question m network) state last = none ∧
      ∀ fuel, m.paidOperators.card < fuel → rounds (question m network) state fuel (build m).weights 0 [] =
        ⟨if (RelaxedCosts.compute (question m network) last state).costOf (View.goalId m) = costCap then none
            else some (charges (roundsOf m state network)),
          (roundsOf m state network).map (·.charge)⟩ := by
  have hself : Lighter (build m).weights (build m).weights := .refl _
  have hsize := card_paidOperators_le m
  obtain ⟨last, hseries, hend⟩ := exists_series hw hn hcost (m.operators.size + 1) hself
    (by rw [weighing_weights]; omega)
  obtain ⟨hlength, hcharges⟩ := hseries.bounded hw hn hcost hself
  rw [weighing_weights] at hlength
  rw [operatorsTotal_weights] at hcharges
  refine ⟨last, hseries, hend, fun fuel hfuel => ?_⟩
  have hrounds := hseries.rounds_eq hend fuel (hlength.trans_lt hfuel) 0 (by omega) []
  rwa [Nat.zero_add] at hrounds

/-- The goal can be reached under the weights of a round exactly if it has a max-cost. -/
theorem costOf_goal_eq_cap_iff (hl : Lighter weights (build m).weights) (state : IdSet) :
    (RelaxedCosts.compute (question m network) weights state).costOf (View.goalId m) = costCap ↔
      (build m).maxCost? m state network = none := by
  have hq := sound_query hw hn
  have hfits : (question m network).Fits weights := fits_of_lighter hcost hl
  have hfirst : (question m network).Fits (build m).weights := fits_of_lighter hcost (.refl _)
  have hlt : ∀ {w}, (question m network).Fits w →
      ((RelaxedCosts.compute (question m network) w state).costOf (View.goalId m) = costCap ↔
        ¬ (RelaxedCosts.compute (question m network) w state).costOf (View.goalId m) < costCap) := fun hw =>
    ⟨fun he => he.not_lt, fun hnot => ((hw.solved hq state).le_cap _).antisymm (Nat.le_of_not_lt hnot)⟩
  rw [maxCost?_eq_none_iff, hlt hfits, hfits.lt_cap_iff hfirst hq]
  exact (hlt hfirst).symm

/-- Without a max-cost there is no round. -/
theorem roundsOf_of_maxCost? (hnone : (build m).maxCost? m state network = none) :
    roundsOf m state network = [] := by
  have hcap := (costOf_goal_eq_cap_iff hw hn hcost (.refl _) state).mpr hnone
  have hround : round? (question m network) state (build m).weights = none :=
    (round?_eq_none_iff (sound_query hw hn) (plain_asking m _) (fits_of_lighter hcost (.refl _))).mpr (.inl hcap)
  rw [roundsOf, trace, hround]

/-- **Every round of a series is exact**, and what it cuts are operators. -/
theorem Series.exact {xs : List Round} {last : Array Nat}
    (h : Series (question m network) state weights xs last) (hl : Lighter weights (build m).weights) :
    ∀ x ∈ xs, x.Exact (question m network) ∧ ∀ id ∈ x.ops, ∃ i < m.operators.size, id = m.operatorId i := by
  intro x hx
  obtain ⟨hround, hlight⟩ := h.of_mem.2 x hx
  have hfirst : Lighter x.weights (build m).weights := hlight.trans hl
  have hexact := hround.exact (sound_query hw hn) (fits_of_lighter hcost hfirst)
  exact ⟨hexact, fun id hid => exists_of_weight_pos hfirst (hexact.weighs id hid)⟩

end Network

/-- The cuts for a state and a network. -/
abbrev cutsFor (m : Model) (state : IdSet) (network : List Task) : CutCosts := (build m).compute m state network

/-- **The cuts for a network are exact.**  Passes, walks back and rounds end by themselves, after no more cuts than
operators cost something; there is no value exactly if there is no max-cost, and then there are no cuts.  Otherwise
the value is the sum of the cuts, none of which is nothing, and no more than all operators cost; every round cuts
operators that weigh something and cost what the goal does, and takes the charge off each of them in full; and the
rounds end because the goal costs nothing under the weights that are left. -/
theorem compute_exact {d : Draft} {m : Model} {network : List Task} (hd : d.build = .ok m)
    (hcost : m.totalCost < costCap) (hn : ∀ t ∈ network, m.HasTask t) (state : IdSet) :
    (∀ w, (RelaxedCosts.compute (question m network) w state).queue.toList = []) ∧
    (∀ fuel, m.paidOperators.card < fuel →
      rounds (question m network) state fuel (build m).weights 0 [] = cutsFor m state network) ∧
    (cutsFor m state network).cuts.length ≤ m.paidOperators.card ∧
    ((cutsFor m state network).value = none ↔ (build m).maxCost? m state network = none) ∧
    ((cutsFor m state network).value = none → (cutsFor m state network).cuts = []) ∧
    ∀ v, (cutsFor m state network).value = some v →
      v = (cutsFor m state network).cuts.sum ∧ v ≤ m.totalCost ∧ (∀ c ∈ (cutsFor m state network).cuts, 0 < c) ∧
      ∃ xs last, Series (question m network) state (build m).weights xs last ∧
        (cutsFor m state network).cuts = xs.map (·.charge) ∧
        (RelaxedCosts.compute (question m network) last state).costOf (View.goalId m) = 0 ∧
        ∀ x ∈ xs, x.Exact (question m network) ∧ ∀ id ∈ x.ops, ∃ i < m.operators.size, id = m.operatorId i := by
  have hw := Draft.wellFormed_of_build hd
  have hq := sound_query hw hn
  have hself : Lighter (build m).weights (build m).weights := .refl _
  obtain ⟨last, hseries, hend, hrounds⟩ := exists_series_roundsOf hw hn hcost state
  obtain ⟨hlength, hcharges⟩ := hseries.bounded hw hn hcost hself
  rw [weighing_weights] at hlength
  rw [operatorsTotal_weights] at hcharges
  have hlast : Lighter last (build m).weights := hseries.of_mem.1
  have hexact := hseries.exact hw hn hcost hself
  have hcap := costOf_goal_eq_cap_iff hw hn hcost hlast state
  have houtcome := hrounds _ (Nat.lt_succ_of_le (card_paidOperators_le m))
  change cutsFor m state network = _ at houtcome
  have hvalue : (cutsFor m state network).value = none ↔ (build m).maxCost? m state network = none := by
    rw [houtcome, ← hcap]
    simp
  refine ⟨fun w => ?_, fun fuel hfuel => ?_, ?_, hvalue, fun hnone => ?_, fun v hv => ?_⟩
  · obtain ⟨-, -, hempty⟩ := RelaxedCosts.exists_pass_compute hq w state
    exact hempty
  · rw [hrounds fuel hfuel, houtcome]
  · rwa [houtcome, List.length_map]
  · rw [houtcome, roundsOf_of_maxCost? hw hn hcost (hvalue.mp hnone), List.map_nil]
  · rw [houtcome, Option.ite_none_left_eq_some, Option.some.injEq] at hv
    obtain ⟨hreached, rfl⟩ := hv
    have hstop := (round?_eq_none_iff hq (plain_asking m _) (fits_of_lighter hcost hlast)).mp hend
    refine ⟨by rw [houtcome, charges], hcharges, fun c hc => ?_, roundsOf m state network, last, hseries,
      by rw [houtcome], hstop.resolve_left hreached, hexact⟩
    rw [houtcome] at hc
    obtain ⟨x, hx, rfl⟩ := List.mem_map.mp hc
    exact (hexact x hx).1.positive

/-- The cuts for the job add up to what doing it apart costs. -/
theorem compute_exact_forked :
    Draft.forked.build = .ok .forked ∧ Model.totalCost .forked < costCap ∧
      (∀ t ∈ Model.forked.network, Model.HasTask .forked t) ∧
      (cutsFor .forked Model.forked.init Model.forked.network).cuts.length ≤ 3 ∧
      10 = (cutsFor .forked Model.forked.init Model.forked.network).cuts.sum ∧ 10 ≤ Model.totalCost .forked := by
  have hd : Draft.forked.build = .ok .forked := rfl
  have hcost : Model.totalCost .forked < costCap := by decide
  have hn : ∀ t ∈ Model.forked.network, Model.HasTask .forked t := by decide
  obtain ⟨-, -, hlength, -, -, hvalue⟩ := compute_exact hd hcost hn Model.forked.init
  have hten : (cutsFor .forked Model.forked.init Model.forked.network).value = some 10 := by
    decide +kernel
  obtain ⟨hsum, htotal, -⟩ := hvalue 10 hten
  exact ⟨hd, hcost, hn, hlength, hsum, htotal⟩

end LandmarkCut

end HierPlan
