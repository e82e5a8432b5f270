import HierPlan.Proofs.Cost.LeastCost
import HierPlan.Proofs.Graph.Passage

/-!
# Proofs/Cost/Consistency — no move takes more off an estimate than it weighs

    estimate (situation)  ≤  weight (move) + estimate (next situation)

What an operator takes off is exactly its weight (`DecompositionCosts.cost_operator_eq`); a method puts its network
in the place of a task that costs no more.  So an estimate is a lower bound along a single move
(`DecompositionCosts.network?_of_moved`), and by induction along every way to go on
(`DecompositionCosts.network?_of_walk`).  **Where nothing is left to do it is nothing, so it never exceeds what
an execution weighs** (`DecompositionCosts.network?_consistent`).
-/

namespace HierPlan

/-- What a move counts: one or its cost, if it applies an operator, and nothing if it uses a method. -/
def Move.weight (w : Weighting) (v : Move) : Nat :=
  match v.transition with
  | .method _ => 0
  | .operator _ =>
    match w with
    | .unit => 1
    | .cost => v.cost

variable {m : Model} {w : Weighting} {s : Situation} {v : Move}

theorem Model.planWeight_append (p q : List Nat) :
    m.planWeight w (p ++ q) = m.planWeight w p + m.planWeight w q := by
  rw [planWeight, List.map_append, List.sum_append]
  rfl

/-- A move counts as much as the operators it applies. -/
theorem Situation.Moved.planWeight_applied (h : s.Moved m v) :
    m.planWeight w v.transition.applied = v.weight w := by
  cases h with
  | method known applicable => rfl
  | @operator state rest i o known applicable =>
    cases w with
    | unit => rfl
    | cost =>
      have hcost : View.operatorWeight m (.decomposition .cost) i = o.cost := by
        change (m.operators[i]?.map (·.cost)).getD 0 = o.cost
        rw [known]
        rfl
      rw [Transition.applied, Model.planWeight, List.map_singleton, List.sum_singleton, hcost]
      rfl

namespace DecompositionCosts

/-- **An operator that can be had costs what it weighs.** -/
theorem cost_operator_eq (hw : m.WellFormed) {i : Nat} (hi : i < m.operators.size)
    (hcap : (ofModel m w).cost (m.operatorId i) < costCap) :
    (ofModel m w).cost (m.operatorId i) = View.operatorWeight m (.decomposition w) i := by
  obtain ⟨n, hn, hrule, hweight, hpreds⟩ := exists_node_operator (w := w) hw hi
  obtain ⟨k, hlowered⟩ := ((View.decomposition w).graph m).decompositionCosts_lowered
  -- its only derivation has nothing below it
  generalize hc : (ofModel m w).cost (m.operatorId i) = c at hcap ⊢
  have hforest : ((View.decomposition w).graph m).Forest (· + ·) [m.operatorId i] c :=
    hc ▸ hlowered.forest (hc ▸ hcap : (ofModel m w).cost (m.operatorId i) < costCap)
  cases hforest with
  | given here rule =>
    obtain rfl := Option.some.inj (hn.symm.trans here)
    exact nomatch hrule.symm.trans rule
  | any here rule =>
    obtain rfl := Option.some.inj (hn.symm.trans here)
    exact nomatch hrule.symm.trans rule
  | all here rule below others =>
    obtain rfl := Option.some.inj (hn.symm.trans here)
    rw [hpreds] at below
    cases below
    cases others
    exact hweight

/-- Below the cap an estimate is what the tasks cost together, and only then. -/
theorem network?_eq_some_iff {t : DecompositionCosts} {network : List Task} {c : Nat} (hc : c < costCap) :
    t.network? m network = some c ↔ (network.map fun x => t.cost (m.taskId x)).sum = c := by
  rw [network?, cappedTotal?_eq_some_iff hc, Nat.zero_add]

/-- **A move takes no more off an estimate than it weighs**, and an operator takes off just that. -/
theorem network?_of_moved (hw : m.WellFormed) (hv : s.Moved m v) {c : Nat}
    (hnext : (ofModel m w).network? m v.next.network = some c) (hcap : v.weight w + c < costCap) :
    ∃ c', (ofModel m w).network? m s.network = some c' ∧ c' ≤ v.weight w + c ∧
      ∀ i, v.transition = .operator i → c' = v.weight w + c := by
  have hsum := (network?_eq_some_iff (by omega)).mp hnext
  have hweight := hv.planWeight_applied (w := w)
  cases hv with
  | @operator state rest i o known applicable =>
    have hi := (Array.getElem?_eq_some_iff.mp known).1
    rw [Transition.applied, Model.planWeight, List.map_singleton, List.sum_singleton] at hweight
    rw [← hweight] at hcap ⊢
    have hle := cost_operator_le (w := w) hw hi
    have heq := cost_operator_eq (w := w) hw hi (by omega)
    refine ⟨_, (network?_eq_some_iff hcap).mpr ?_, le_rfl, fun _ _ => rfl⟩
    rw [List.map_cons, List.sum_cons, hsum]
    exact congrArg (· + c) heq
  | @method state rest d y known applicable =>
    rw [← hweight] at hcap ⊢
    change 0 + c < costCap at hcap
    change ∃ c', _ ∧ c' ≤ 0 + c ∧ _
    have hle : (ofModel m w).cost (m.compoundId y.task) ≤
        (y.network.map fun x => (ofModel m w).cost (m.taskId x)).sum :=
      (cost_compound_le hw known).trans (cost_method_le hw known)
    rw [List.map_append, List.sum_append] at hsum
    refine ⟨(ofModel m w).cost (m.compoundId y.task) + (rest.map fun x => (ofModel m w).cost (m.taskId x)).sum,
      (network?_eq_some_iff (by omega)).mpr rfl, by omega, fun i hi => ?_⟩
    cases hi

/-- **Nor does any way to go on.** -/
theorem network?_of_walk (hw : m.WellFormed) {a b : Situation} {plan : List Nat} (h : Walk m a plan b) {c : Nat}
    (hb : (ofModel m w).network? m b.network = some c) (hcap : m.planWeight w plan + c < costCap) :
    ∃ c', (ofModel m w).network? m a.network = some c' ∧ c' ≤ m.planWeight w plan + c := by
  induction h with
  | stay => exact ⟨c, hb, Nat.le_add_left ..⟩
  | step first after ih =>
    have hmoved := Situation.moved hw first
    rw [Model.planWeight_append, hmoved.planWeight_applied] at hcap ⊢
    obtain ⟨e, hnext, hle⟩ := ih hb (by omega)
    obtain ⟨e', hhere, hle', -⟩ := network?_of_moved hw hmoved hnext (by omega)
    exact ⟨e', hhere, by omega⟩

/-- **An estimate is consistent**: a move takes no more off it than it weighs, and an operator takes off just
that; it is nothing where nothing is to be done.  **So it is no more than an execution of the network weighs.** -/
theorem network?_consistent {d : Draft} (hd : d.build = .ok m) (w : Weighting) :
    (∀ s : Situation, ∀ v ∈ s.moves m, ∀ c, (ofModel m w).network? m v.next.network = some c →
      v.weight w + c < costCap →
      ∃ c', (ofModel m w).network? m s.network = some c' ∧ c' ≤ v.weight w + c ∧
        ∀ i, v.transition = .operator i → c' = v.weight w + c) ∧
    (ofModel m w).network? m [] = some 0 ∧
    ∀ (s t : IdSet) (network : List Task) (plan : List Nat), Execution m s network plan t →
      m.planWeight w plan < costCap →
      ∃ c, (ofModel m w).network? m network = some c ∧ c ≤ m.planWeight w plan := by
  have hw := Draft.wellFormed_of_build hd
  refine ⟨fun s v hv c hnext hcap => network?_of_moved hw (Situation.moved hw hv) hnext hcap, rfl,
    fun s t network plan h hcap => ?_⟩
  exact network?_of_walk hw (execution_iff_walk.mp h) (c := 0) rfl hcap

/-- The estimate of the lamp's switch, and of lighting it. -/
theorem network?_consistent_lamp :
    (Draft.lamp [0]).build = .ok (Model.lamp [0]) ∧
      (ofModel (Model.lamp [0]) .cost).network? (Model.lamp [0]) [.operator 1] = some 3 ∧
      ∃ c, (ofModel (Model.lamp [0]) .cost).network? (Model.lamp [0]) [.compound 0] = some c ∧ c ≤ 3 := by
  obtain ⟨hmove, hnil, -⟩ :=
    network?_consistent (show (Draft.lamp [0]).build = .ok (Model.lamp [0]) from rfl) .cost
  obtain ⟨c, hswitch, -, hc⟩ := hmove ⟨.ofList 2 [], [.operator 1]⟩
    ⟨.operator 1, ⟨.ofList 2 [0], []⟩, 3⟩ (.head _) 0 hnil (by decide)
  obtain rfl := hc 1 rfl
  obtain ⟨c, hlight, hle, -⟩ := hmove ⟨.ofList 2 [], [.compound 0]⟩
    ⟨.method 1, ⟨.ofList 2 [], [.operator 1]⟩, 0⟩ (.tail _ (.head _)) 3 hswitch (by decide)
  exact ⟨rfl, hswitch, c, hlight, hle⟩

end DecompositionCosts

end HierPlan
