import HierPlan.Proofs.Cost.Derived
import HierPlan.Proofs.Landmark.Engine
import HierPlan.Proofs.Landmark.Fixpoint
import HierPlan.Proofs.Landmark.Rounds

/-!
# Proofs/Landmark/Reachable — tables and costs agree on what can be reached

    bottom-up graph   operator ────────────────────▸ method        initial facts are given
    composition       operator ──▸ recomposition ──▸ method        initial facts cost nothing

A landmark table is swept over one graph, costs are found in order over another, where operators come to
methods through recomposition nodes and the goal has no arcs.  What both reach is the least set that holds the
initial facts and what doing tasks brings about (`Model.Closes`): **from the initial state a table reaches an
id exactly if it has a cost** (`LandmarkCut.costOf_lt_cap_iff`), whatever the weights are, and so **an engine,
a max-cost and the cuts call the same networks unreachable** (`LandmarkCut.unreachable_iff`).
-/

namespace HierPlan

variable {m : Model} {K : Nat → Prop} {state : IdSet} {network : List Task} {weights : Array Nat}

/-! ## The bottom-up graph -/

theorem View.bottomUp_ne_topDown : View.bottomUp ≠ .topDown := nofun

theorem View.composition_ne_topDown : View.composition ≠ .topDown := nofun

/-- In the bottom-up graph nothing is given but facts that hold at the start. -/
theorem View.mem_init_of_given {id : Nat} {l : NodeLabel} (hl : View.bottomUp.label m id = some l)
    (hr : l.rule = .given) : id ∈ m.init := by
  unfold View.label at hl
  split at hl
  · rename_i c hc
    obtain ⟨rfl, -⟩ := Model.idOf_componentAt? hc
    cases c with
    | fact f =>
      obtain rfl := Option.some.inj hl
      by_contra hf
      have hout : m.init.contains f = false := Bool.eq_false_iff.mpr hf
      simp [hout] at hr
    | operator i | method i =>
      obtain rfl := Option.some.inj hl
      cases hr
    | compound a =>
      obtain rfl := Option.some.inj hl
      simp [View.taskRule] at hr
  · cases hl

/-- **A set that holds the initial facts and what doing tasks brings about is closed under the bottom-up
rules.** -/
theorem View.closed_of_closes (hw : m.WellFormed)
    (h : m.Closes (View.bottomUp.subtaskId m) (fun _ => True) K) (hinit : ∀ f ∈ m.init, K f) :
    (View.bottomUp.graph m).Closed K := by
  refine ⟨fun id n here rule => hinit id (mem_init_of_given (label_of_node? here) rule),
    fun id n here rule p hp hin => ?_, fun id n here rule hin => ?_⟩
  · have hne : n.rule ≠ .given := by rw [rule]; exact nofun
    have hfed := (mem_predecessors hw here hne).mp hp
    have hl := label_of_node? here
    cases hfed with
    | effect _ known added => exact h.effect _ _ trivial known hin _ added
    | refines _ known => exact h.compound _ _ known hin
    -- operators and methods need all that feeds them
    | condition _ known =>
      rw [label_operator (Array.getElem?_eq_some_iff.mp known).1, Option.some.injEq] at hl
      rw [← hl] at rule
      cases rule
    | guard _ known | subtask _ known =>
      rw [label_method (Array.getElem?_eq_some_iff.mp known).1, Option.some.injEq] at hl
      rw [← hl] at rule
      cases rule
    | recompose composed => cases composed
    | chosen down | part down | asked down => cases down
  · have hl := label_of_node? here
    have hne : n.rule ≠ .given := by rw [rule]; exact nofun
    have hfed : ∀ p, View.bottomUp.Feeds m p id → K p := fun p hp =>
      hin p ((mem_predecessors hw here hne).mpr hp)
    unfold View.label at hl
    split at hl
    · rename_i c hc
      obtain ⟨rfl, hhas⟩ := Model.idOf_componentAt? hc
      cases c with
      | operator i =>
        have known := Array.getElem?_eq_getElem hhas
        exact h.operator i _ trivial known fun f hf => hfed f (.condition rfl known hf)
      | method i =>
        have known := Array.getElem?_eq_getElem hhas
        exact h.method i _ known (fun f hf => hfed f (.guard rfl known hf)) fun t ht =>
          hfed _ (.subtask bottomUp_ne_topDown known ht)
      | fact f =>
        have hrule := congrArg NodeLabel.rule (Option.some.inj hl)
        rw [rule] at hrule
        dsimp only at hrule
        split at hrule <;> cases hrule
      | compound a =>
        have hrule := congrArg NodeLabel.rule (Option.some.inj hl)
        exact (taskRule_ne_all (m := m) (v := .bottomUp) (.compound a) (hrule.trans rule)).elim
    · cases hl

namespace LandmarkCut

/-! ## From the bottom-up graph to the composition graph -/

/-- Where tasks close with recomposition nodes, they close without. -/
theorem closes_bottomUp (h : m.Closes (View.composition.subtaskId m) (fun _ => True) K) (hw : m.WellFormed) :
    m.Closes (View.bottomUp.subtaskId m) (fun _ => True) K := by
  refine ⟨h.operator, h.effect, fun _ _ _ hin => hin, fun i d known hpre hsub => ?_, h.compound⟩
  refine h.method i d known hpre fun t ht => ?_
  cases t with
  | operator j => exact h.subtask j trivial ((hw.methods i d known).network _ ht) (hsub _ ht)
  | compound a => exact hsub _ ht

/-- What a slot of a composition graph stands for in the bottom-up graph is in a set; the goal stands for
nothing. -/
def StandsFor (m : Model) (K : Nat → Prop) : View.Slot → Prop
  | .component c => K (m.idOf c)
  | .recomposition i => K (m.operatorId i)
  | .goal => True

/-- What stands in a place of a composition graph stands for something in a set. -/
def StandsIn (m : Model) (K : Nat → Prop) (id : Nat) : Prop :=
  ∀ s : View.Slot, s.Known m → s.id m = id → StandsFor m K s

/-- A node that needs any feeder comes into a set with one of them. -/
theorem standsIn_any (hw : m.WellFormed) (h : m.Closes (View.bottomUp.subtaskId m) (fun _ => True) K)
    {id p : Nat} (hor : (question m network).needsAll id = false) (hp : p ∈ (question m network).feeders id)
    (hin : StandsIn m K p) : StandsIn m K id := by
  rintro s hs rfl
  have fed : ∀ l, View.composition.label m (s.id m) = some l → l.kind ≠ .goal →
      s.FedBy m .composition p := fun l hl hk =>
    (View.Slot.feeds_iff hw View.composition_ne_topDown s hs).mp ((mem_feeders hw hl hk).mp hp)
  have noAll : ∀ l, View.composition.label m (s.id m) = some l → l.kind ≠ .goal → l.rule ≠ .all :=
    fun l hl hk => beq_eq_false_iff_ne.mp ((needsAll_of_label hl hk).symm.trans hor)
  cases s with
  | component c =>
    cases c with
    | fact f =>
      obtain ⟨-, i, o, known, added, rfl⟩ := fed _ (View.label_fact rfl hs) nofun
      have hi := (Array.getElem?_eq_some_iff.mp known).1
      exact h.effect i o trivial known (hin (.component (.operator i)) hi rfl) f added
    | compound a =>
      obtain ⟨i, d, known, rfl, rfl⟩ := fed _ (View.label_compound hs) nofun
      have hi := (Array.getElem?_eq_some_iff.mp known).1
      exact h.compound i d known (hin (.component (.method i)) hi rfl)
    | operator i => exact absurd rfl (noAll _ (View.label_operator hs) nofun)
    | method i => exact absurd rfl (noAll _ (View.label_method hs) nofun)
  | recomposition i =>
    obtain ⟨-, rfl⟩ := fed _ (View.label_recomposition hs) nofun
    exact hin (.component (.operator i)) hs rfl
  | goal => trivial

/-- A node that needs all its feeders comes into a set with all of them. -/
theorem standsIn_all (hw : m.WellFormed) (h : m.Closes (View.bottomUp.subtaskId m) (fun _ => True) K)
    {id : Nat} (hall : (question m network).needsAll id = true)
    (hin : ∀ p ∈ (question m network).feeders id, StandsIn m K p) : StandsIn m K id := by
  rintro s hs rfl
  have feeds : ∀ l, View.composition.label m (s.id m) = some l → l.kind ≠ .goal →
      ∀ p, View.composition.Feeds m p (s.id m) → StandsIn m K p := fun l hl hk p hp =>
    hin p ((mem_feeders hw hl hk).mpr hp)
  have onlyAll : ∀ l, View.composition.label m (s.id m) = some l → l.kind ≠ .goal → l.rule = .all :=
    fun l hl hk => beq_iff_eq.mp ((needsAll_of_label hl hk).symm.trans hall)
  cases s with
  | component c =>
    cases c with
    | operator i =>
      have known := Array.getElem?_eq_getElem hs
      have feeds := feeds _ (View.label_operator hs) nofun
      refine h.operator i _ trivial known fun f hf => ?_
      have hlt := (IdSet.lt_width_of_mem hf).trans_eq (hw.operators i _ known).pre
      exact feeds f (.condition rfl known hf) (.component (.fact f)) hlt rfl
    | method i =>
      have known := Array.getElem?_eq_getElem hs
      have hd := hw.methods i _ known
      have feeds := feeds _ (View.label_method hs) nofun
      refine h.method i _ known (fun f hf => ?_) fun t ht => ?_
      · have hlt := (IdSet.lt_width_of_mem hf).trans_eq hd.pre
        exact feeds f (.guard rfl known hf) (.component (.fact f)) hlt rfl
      · have hsub := feeds _ (.subtask View.composition_ne_topDown known ht)
        cases t with
        | operator j => exact hsub (.recomposition j) (hd.network _ ht) rfl
        | compound a => exact hsub (.component (.compound a)) (hd.network _ ht) rfl
    | fact f => exact nomatch onlyAll _ (View.label_fact rfl hs) nofun
    | compound a =>
      have hall := onlyAll _ (View.label_compound hs) nofun
      exact (View.taskRule_ne_all (m := m) (v := .composition) (.compound a) hall).elim
  | recomposition i => exact nomatch onlyAll _ (View.label_recomposition hs) nofun
  | goal => trivial

/-- **A set that holds the facts of a state and what doing tasks brings about is closed under the rules that
costs are found by.** -/
theorem closedUnder_of_closes (hw : m.WellFormed)
    (h : m.Closes (View.bottomUp.subtaskId m) (fun _ => True) K) (hwidth : state.width = m.facts.size)
    (hstate : ∀ f ∈ state, K f) :
    RelaxedCosts.ClosedUnder (question m network) weights state fun id _ => StandsIn m K id := by
  refine ⟨fun f hf _ s hs hid => ?_, fun id hor p hp _ hin => standsIn_any hw h hor hp hin,
    fun id hall _ hnil => standsIn_all hw h hall fun p hp => ?_,
    fun id hall _ _ _ _ hin => standsIn_all hw h hall fun p hp => ?_⟩
  · have hlt := hwidth ▸ IdSet.lt_width_of_mem hf
    obtain rfl := View.Slot.id_inj (t := .component (.fact f)) hs hlt hid
    exact hstate f hf
  · rw [hnil] at hp
    exact absurd hp List.not_mem_nil
  · obtain ⟨_, -, hp'⟩ := hin p hp
    exact hp'

/-! ## What has a cost -/

section Costs

variable (hw : m.WellFormed) (hn : ∀ t ∈ network, m.HasTask t) (hcost : m.totalCost < costCap)
  (hl : Lighter weights (build m).weights)

include hw hn hcost hl

/-- The costs from the initial state solve the equations. -/
theorem solved_init : (RelaxedCosts.compute (question m network) weights m.init).Solved
    (question m network) weights m.init := solved_of_lighter hw hn hcost hl

/-- **A table reaches a component from the initial state exactly if the component has a cost there**, under
the costs of the operators or any weights below. -/
theorem costOf_lt_cap_iff {c : Component} (hc : m.HasComponent c) :
    (RelaxedCosts.compute (question m network) weights m.init).costOf (m.idOf c) < costCap ↔
      (View.bottomUp.graph m).propagate.isReached (m.idOf c) = true := by
  have closed := (View.bottomUp.mirrored m).closed
  constructor
  · intro hcap
    have htotal : (question m network).totalWeight weights < costCap :=
      (hl.totalWeight_le.trans totalWeight_le).trans_lt hcost
    have hunder : RelaxedCosts.ClosedUnder (question m network) weights m.init fun id _ =>
        StandsIn m (fun id => (View.bottomUp.graph m).propagate.isReached id = true) id :=
      closedUnder_of_closes hw (View.closes_of_closed hw View.bottomUp_ne_topDown rfl closed _) hw.init fun f hf =>
        View.of_init hw (closed.within fun _ => True) rfl rfl hf trivial
    exact RelaxedCosts.holds_of_lt_cap (sound_query hw hn) htotal hl.weight_goal hunder hcap (.component c) hc rfl
  · intro hreached
    have hs := solved_init hw hn hcost hl
    have hcloses := closes_bottomUp (closes_reached hw hs fun _ => True) hw
    have hclosed := View.closed_of_closes hw hcloses fun f hf => by
      rw [cost_fact hs hw.init hf]
      decide
    exact AndOrGraph.derivable_of_closed hclosed.given hclosed.any hclosed.all
      ((View.bottomUp.mirrored m).isReached_iff.mp hreached)

/-- A task has a cost exactly if its component is reached: a recomposition node costs what its operator
does. -/
theorem costOf_taskNode_lt_cap_iff {t : Task} (ht : m.HasTask t) :
    (RelaxedCosts.compute (question m network) weights m.init).costOf
        (View.taskNode m (View.composition.graph m) t) < costCap ↔
      (View.bottomUp.graph m).propagate.isReached (m.taskId t) = true := by
  rw [taskNode_eq ht]
  cases t with
  | compound a => exact costOf_lt_cap_iff hw hn hcost hl (c := .compound a) ht
  | operator i =>
    rw [show m.taskId (.operator i) = m.idOf (.operator i) from rfl,
      ← costOf_lt_cap_iff hw hn hcost hl (c := .operator i) ht]
    have hs := solved_init hw hn hcost hl
    have hlabel := View.label_recomposition (m := m) ht
    have hkind : NodeKind.recomposition ≠ .goal := nofun
    constructor
    · intro hcap
      have hor : (question m network).needsAll (View.recompositionId m i) = false :=
        needsAll_of_label hlabel hkind
      obtain ⟨-, hfact⟩ | ⟨p, hp, heq⟩ := hs.attained _ hor hcap
      · rw [show (question m network).graph = View.composition.graph m from rfl,
          isKind_composition hlabel] at hfact
        cases hfact
      · obtain ⟨-, rfl⟩ := (View.Slot.feeds_iff hw View.composition_ne_topDown (.recomposition i) ht).mp
          ((mem_feeders hw hlabel hkind).mp hp)
        exact heq ▸ hcap
    · exact fun hcap =>
        (cost_le_of_feeds hw hs hlabel (nofun) (.recompose rfl ht)).trans_lt hcap

/-- **The goal has a cost exactly if everything still to be reached is.** -/
theorem costOf_goal_lt_cap_iff :
    (RelaxedCosts.compute (question m network) weights m.init).costOf (View.goalId m) < costCap ↔
      (LandmarkEngine.wanted m ⟨m.init, network⟩).all
        (View.bottomUp.graph m).propagate.isReached = true := by
  have hs := solved_init hw hn hcost hl
  have hfeeders : (RelaxedCosts.compute (question m network) weights m.init).costOf (View.goalId m) <
      costCap ↔ ∀ p ∈ (question m network).feeders (View.goalId m),
        (RelaxedCosts.compute (question m network) weights m.init).costOf p < costCap :=
    ⟨fun hcap p hp => (hs.le_cap p).lt_of_ne fun he => hcap.ne (hs.unpriced _ (RelaxedGoal.needsAll_goal _) p hp he),
      hs.below _ (RelaxedGoal.needsAll_goal _) (sound_query hw hn).goal⟩
  have hfact : ∀ f ∈ m.goal, f < m.facts.size := fun f hf => hw.goal ▸ IdSet.lt_width_of_mem hf
  rw [hfeeders, feeders_goal, List.all_eq_true, LandmarkEngine.wanted, LandmarkEngine.openIds]
  simp only [List.forall_mem_append, List.mem_map, forall_exists_index, and_imp,
    forall_apply_eq_imp_iff₂, List.mem_filter, IdSet.mem_toList]
  refine and_congr ?_ (forall₂_congr fun t ht => costOf_taskNode_lt_cap_iff hw hn hcost hl (hn t ht))
  constructor
  · exact fun h f hf _ => (costOf_lt_cap_iff hw hn hcost hl (c := .fact f) (hfact f hf)).mp (h f hf)
  · intro h f hf
    by_cases hin : f ∈ m.init
    · rw [cost_fact hs hw.init hin]
      decide
    · have hout : m.init.contains f = false := Bool.eq_false_iff.mpr hin
      exact (costOf_lt_cap_iff hw hn hcost hl (c := .fact f) (hfact f hf)).mpr
        (h f hf (by rw [hout]; rfl))

end Costs

/-! ## What is called unreachable -/

/-- An engine has no seed exactly if something still to be reached is not. -/
theorem seed_eq_none_iff {bidirectional : Bool} :
    (LandmarkEngine.build m bidirectional).seed m m.init network = .ok none ↔
      ¬ (LandmarkEngine.wanted m ⟨m.init, network⟩).all
        (View.bottomUp.graph m).propagate.isReached = true := by
  have hseed : (LandmarkEngine.build m bidirectional).seed m m.init network =
      .ok (if (LandmarkEngine.wanted m ⟨m.init, network⟩).all
          (View.bottomUp.graph m).propagate.isReached = true then
        some (LandmarkEngine.joined m (LandmarkEngine.wanted m ⟨m.init, network⟩)) else none) := rfl
  rw [hseed]
  split
  · rename_i h
    exact ⟨fun he => (nomatch he), fun hnot => absurd h hnot⟩
  · rename_i h
    exact ⟨fun _ => h, fun _ => rfl⟩

/-- A network has no max-cost exactly if its goal costs the cap. -/
theorem maxCost?_eq_none_iff (k : LandmarkCut) (m : Model) (state : IdSet) (network : List Task) :
    k.maxCost? m state network = none ↔
      (RelaxedCosts.compute (k.query m network) k.weights state).costOf k.goal = costCap := by
  rw [maxCost?]
  split
  · rename_i h
    exact ⟨fun _ => h, fun _ => rfl⟩
  · rename_i h
    exact ⟨fun he => (nomatch he), fun he => absurd he h⟩

/-- **Rounds have no value exactly if the goal costs the cap to begin with**: discounts make nothing
unreachable. -/
theorem value_eq_none_iff (q : RelaxedGoal) (fuel : Nat)
    (hsame : ∀ w, Lighter w weights → ((RelaxedCosts.compute q w state).costOf q.goal = costCap ↔
      (RelaxedCosts.compute q weights state).costOf q.goal = costCap)) :
    (rounds q state (fuel + 1) weights 0 []).value = none ↔
      (RelaxedCosts.compute q weights state).costOf q.goal = costCap := by
  constructor
  · intro hvalue
    by_contra hcap
    have hself : Lighter weights weights := .refl _
    rw [rounds_eq (v := weights) (fun w hl he => hcap ((hsame w hl).mp he)) (fuel + 1) hself
      (Nat.zero_le _) []] at hvalue
    cases hvalue
  · intro hcap
    rw [rounds]
    dsimp only
    rw [if_pos hcap]

/-- **Tables and costs agree on what can be reached** from the initial state: an engine has no seed for a
network exactly if the network has no max-cost, exactly if its cuts have no value, and the bottom-up table
reaches an id exactly if a pass gives it a cost. -/
theorem unreachable_iff {d : Draft} (hd : d.build = .ok m) (hcost : m.totalCost < costCap)
    (hn : ∀ t ∈ network, m.HasTask t) (bidirectional : Bool) :
    ((LandmarkEngine.build m bidirectional).seed m m.init network = .ok none ↔
      (build m).maxCost? m m.init network = none) ∧
    ((build m).maxCost? m m.init network = none ↔
      ((build m).compute m m.init network).value = none) ∧
    ∃ table, (LandmarkEngine.build m bidirectional).bottomUp = .ok table ∧
      ∀ id < m.size, table.isReached id = true ↔
        (RelaxedCosts.compute ((build m).query m network) (build m).weights m.init).costOf id < costCap := by
  have hw := Draft.wellFormed_of_build hd
  have hself : Lighter (build m).weights (build m).weights := .refl _
  have hcap : ∀ w, Lighter w (build m).weights →
      ((RelaxedCosts.compute (question m network) w m.init).costOf (View.goalId m) = costCap ↔
        ¬ (LandmarkEngine.wanted m ⟨m.init, network⟩).all
          (View.bottomUp.graph m).propagate.isReached = true) := fun w hl => by
    have hs := solved_init hw hn hcost hl
    rw [← costOf_goal_lt_cap_iff hw hn hcost hl, Nat.not_lt]
    exact ⟨fun he => he.ge, fun hle => Nat.le_antisymm (hs.le_cap _) hle⟩
  have hmax := (maxCost?_eq_none_iff (build m) m m.init network).trans (hcap _ hself)
  have hvalue := (value_eq_none_iff (question m network) m.operators.size fun w hl =>
    (hcap w hl).trans (hcap _ hself).symm).trans (hcap _ hself)
  refine ⟨seed_eq_none_iff.trans hmax.symm, hmax.trans hvalue.symm, _, rfl, fun id hid => ?_⟩
  obtain ⟨c, hid⟩ := Model.exists_componentAt? hid
  obtain ⟨rfl, hc⟩ := Model.idOf_componentAt? hid
  exact (costOf_lt_cap_iff hw hn hcost hself hc).symm

/-- Nothing ever pays the bill of the lamp, and all three say so. -/
theorem unreachable_iff_lamp :
    (Draft.lamp [1]).build = .ok (.lamp [1]) ∧ (Model.lamp [1]).totalCost < costCap ∧
      (∀ t ∈ [Task.compound 0, .compound 0], (Model.lamp [1]).HasTask t) ∧
      (LandmarkEngine.build (.lamp [1]) true).seed (.lamp [1]) (Model.lamp [1]).init
        [.compound 0, .compound 0] = .ok none ∧
      ((build (.lamp [1])).compute (.lamp [1]) (Model.lamp [1]).init
        [.compound 0, .compound 0]).value = none := by
  have hcost : (Model.lamp [1]).totalCost < costCap := by decide
  have hn : ∀ t ∈ [Task.compound 0, .compound 0], (Model.lamp [1]).HasTask t := by decide
  obtain ⟨hseed, hvalue, -⟩ := unreachable_iff (d := .lamp [1]) rfl hcost hn true
  have hmax : (build (.lamp [1])).maxCost? (.lamp [1]) (Model.lamp [1]).init
      [.compound 0, .compound 0] = none := by
    decide +kernel
  exact ⟨rfl, hcost, hn, hseed.mpr hmax, hvalue.mp hmax⟩

end LandmarkCut

end HierPlan
