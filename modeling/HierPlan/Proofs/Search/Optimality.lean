import HierPlan.Proofs.Exact
import HierPlan.Proofs.Search.Completeness
import HierPlan.Proofs.Search.Ranking

/-!
# Proofs/Search/Optimality — the first goal taken is a cheapest one

    any solution = p₁ ++ p₂        a node after p₁ waits:   g ≤ cost p₁ ,  h ≤ cost p₂ ,  f ≤ cost of the solution
    the goal taken                 g ≤ f ≤ f of all that wait

Without estimates, or with decompositions at their cost, no estimate is too high
(`HeuristicOptions.Admissible.plain_le`), and every node keeps the estimate of its situation
(`Run.Appraised`).  A situation met again at less cost gets a node of its own, and the one it had stays
behind in the queue; some node on the way of any solution always waits at no greater cost than the way
had so far (`Run.Covers.exists_waiting`).  **So on exact numbers the plan of a search by least total costs no
more than any solution** (`Search.planCost_le_of_isSolution`).
-/

namespace HierPlan

variable {α : Type} [Scale α] {m : Model} {o : HeuristicOptions} {x : Search} {mon : Monitor}
  {e : Estimator α} {h : Heuristic α} {s s' r : Run α}

/-! ## Estimates stay with their nodes -/

namespace Heuristic

theorem value_atRoot (hk : ∀ c, h.estimator ≠ .landmarkCount c) (m : Model) (a : Situation) :
    (h.atRoot m a).1.value = plain m a h.estimator := by
  obtain ⟨e, statistics⟩ := h
  cases e with
  | landmarkCount c => exact absurd rfl (hk c)
  | blind => rfl
  | decomposition t => rfl
  | landmarkCut k => rfl

theorem estimator_atRoot (hk : ∀ c, h.estimator ≠ .landmarkCount c) (m : Model) (a : Situation) :
    (h.atRoot m a).2.release.estimator = h.estimator := by
  obtain ⟨e, statistics⟩ := h
  cases e with
  | landmarkCount c => exact absurd rfl (hk c)
  | blind => rfl
  | decomposition t => rfl
  | landmarkCut k => rfl

theorem value_atMove (hk : ∀ c, h.estimator ≠ .landmarkCount c) (m : Model) (a : Situation)
    (marks : Option Marks) (v : Move) :
    (h.atMove m a marks v).1.value = plain m v.next h.estimator := by
  obtain ⟨e, statistics⟩ := h
  cases e with
  | landmarkCount c => exact absurd rfl (hk c)
  | blind => rfl
  | decomposition t => rfl
  | landmarkCut k => rfl

end Heuristic

/-- Every node has the estimate of its situation. -/
structure Run.Appraised (m : Model) (e : Estimator α) (s : Run α) : Prop where
  estimator : s.heuristic.estimator = e
  estimate : ∀ (k : Nat) (n : Node α), s.nodes[k]? = some n → n.h = Heuristic.plain m n.situation e

/-- A move that is kept has the estimate of where it leads. -/
theorem Run.Appraised.offered (hk : ∀ c, e ≠ .landmarkCount c) {i : Nat} {n : Node α} {v : Move}
    (hs : s.Appraised x.model e) (ho : s.Offered x i n v s') : s'.Appraised x.model e := by
  obtain ⟨hestimator, hestimate⟩ := hs
  cases ho with
  | revisit => exact ⟨hestimator, hestimate⟩
  | new _ estimated =>
    have hremembered := (congrArg Heuristic.estimator
      (heuristic_remember s (x.key? v.next) (n.g + v.cost))).trans hestimator
    cases estimated with
    | deadEnd =>
      refine ⟨hremembered, fun k p hp => hestimate k p ?_⟩
      rwa [nodes_remember] at hp
    | kept _ child =>
      refine ⟨hremembered, fun k p hp => ?_⟩
      rw [nodes_remember] at hp
      rcases Arena.getElem?_push_cases hp with ⟨-, hp⟩ | ⟨-, rfl⟩
      · exact hestimate k p hp
      · subst child
        refine (Heuristic.value_atMove (fun c => ?_) ..).trans (by rw [hremembered]; rfl)
        rw [hremembered]
        exact hk c

namespace Search

theorem appraised_start (hk : ∀ c, h.estimator ≠ .landmarkCount c) :
    (x.start h).Appraised x.model h.estimator := by
  refine ⟨?_, fun k n hn => ?_⟩
  · rw [heuristic_start, Heuristic.estimator_atRoot hk]
  · generalize hs : x.start h = s at hn
    have started := start_cases x h
    rw [hs] at started
    cases started with
    | deadEnd _ nodes =>
      rw [nodes] at hn
      simp at hn
    | kept _ root nodes =>
      rw [nodes] at hn
      obtain ⟨-, rfl⟩ := Arena.getElem?_singleton hn
      subst root
      exact Heuristic.value_atRoot hk ..

/-- **Every step keeps the estimates.** -/
theorem appraised_step (hk : ∀ c, e ≠ .landmarkCount c) (hs : s.Appraised x.model e)
    (hstep : x.step mon s = .running s') : s'.Appraised x.model e := by
  obtain ⟨i, q, -, ⟨-, rfl⟩ | ⟨n, readings, -, -, rfl⟩⟩ := running_of_step hstep
  · exact ⟨hs.estimator, hs.estimate⟩
  · have hoffered : (({ s with frontier := q, readings } : Run α).offered x i n).Appraised x.model e :=
      Run.offers_induction (P := fun t : Run α => t.Appraised x.model e)
        (fun t v t' _ ht ho => ht.offered hk ho) ⟨hs.estimator, hs.estimate⟩
    rw [Run.expand_eq]
    refine ⟨hoffered.estimator, fun k p hp => ?_⟩
    obtain ⟨p', hp', marks, rfl⟩ := exists_of_forgetMarks hp
    exact hoffered.estimate k p' hp'

end Search

/-! ## No estimate is too high -/

/-- Options under which no estimate is too high. -/
def HeuristicOptions.Admissible (o : HeuristicOptions) : Prop :=
  o.kind = .blind ∨ (o.kind = .decomposition ∧ o.weighting = .cost)

namespace HeuristicOptions.Admissible

/-- They ask for nothing that is limited to machine words. -/
theorem holds (ha : o.Admissible) (m : Model) : o.Holds m := by
  obtain hkind | ⟨hkind, -⟩ := ha <;>
    exact ⟨fun hk => (nomatch hkind.symm.trans hk), fun hk => (nomatch hkind.symm.trans hk)⟩

/-- They ask for no marks. -/
theorem ne_landmarkCount (ha : o.Admissible) (he : e.Serves m o) (c : LandmarkCount α) :
    e ≠ .landmarkCount c := by
  rintro rfl
  cases he with
  | landmarkCount kind =>
    obtain hkind | ⟨hkind, -⟩ := ha <;> cases hkind.symm.trans kind

/-- They answer for all plans that cost less than the cap. -/
theorem admits (ha : o.Admissible) {plan : List Nat} (hcap : m.planCost plan < costCap) :
    o.Admits m plan := by
  obtain hkind | ⟨-, hweighting⟩ := ha
  · exact fun hk => nomatch hkind.symm.trans hk
  · rw [Admits, hweighting, Model.planWeight_cost]
    exact fun _ => hcap

variable {e : Estimator Exact}

/-- **What is still to be paid is never overestimated.** -/
theorem plain_le (ha : o.Admissible) (hw : m.WellFormed) (he : e.Serves m o) {a : Situation}
    {plan : List Nat} {t : IdSet} (hexec : Execution m a.state a.network plan t)
    (hcap : m.planCost plan < costCap) :
    Heuristic.plain m a e ≤ Scale.ofNat (m.planCost plan) := by
  cases he with
  | blind => exact Exact.ofNat_le_ofNat.mpr (Nat.zero_le _)
  | landmarkCount kind => obtain hkind | ⟨hkind, -⟩ := ha <;> cases hkind.symm.trans kind
  | landmarkCut kind => obtain hkind | ⟨hkind, -⟩ := ha <;> cases hkind.symm.trans kind
  | decomposition kind =>
    obtain hkind | ⟨-, hweighting⟩ := ha
    · cases hkind.symm.trans kind
    · have hweight := Model.planWeight_cost m plan
      rw [hweighting]
      obtain ⟨c, hc, hle⟩ := DecompositionCosts.network?_le hw hexec (hweight.trans_lt hcap)
      rw [Heuristic.plain, hc]
      exact Exact.ofNat_le_ofNat.mpr (hle.trans_eq hweight)

end HeuristicOptions.Admissible

/-- No estimate is negative. -/
theorem Heuristic.zero_le_plain (m : Model) (a : Situation) (e : Estimator Exact) :
    (Scale.ofNat 0 : Exact) ≤ plain m a e := by
  cases e with
  | blind => exact le_rfl
  | landmarkCount c => exact le_top
  | decomposition t => exact Exact.ofNat_zero_le _
  | landmarkCut k => exact Exact.ofNat_zero_le _

/-! ## Totals -/

/-- On exact numbers a node's total is its cost and its estimate, the root's too. -/
theorem Arena.f_eq {nodes : Array (Node Exact)} (hnodes : Arena m nodes) {k : Nat} {n : Node Exact}
    (hn : nodes[k]? = some n) : n.f = Scale.ofNat n.g + n.h := by
  obtain ⟨-, root⟩ | ⟨p, q, v, -, -, -, child⟩ := hnodes.reached k n hn
  · rw [root.f, root.g]
    exact (zero_add n.h).symm
  · exact child.f

/-- A total is no less than the cost so far. -/
theorem Arena.g_le_f {nodes : Array (Node Exact)} (hnodes : Arena m nodes) {k : Nat} {n : Node Exact}
    (hn : nodes[k]? = some n) (hnonneg : (Scale.ofNat 0 : Exact) ≤ n.h) : Scale.ofNat n.g ≤ n.f := by
  rw [hnodes.f_eq hn]
  exact le_add_of_nonneg_right hnonneg

/-- A total is no more than bounds on the cost so far and on the estimate together. -/
theorem Arena.f_le {nodes : Array (Node Exact)} (hnodes : Arena m nodes) {k : Nat} {n : Node Exact}
    (hn : nodes[k]? = some n) {a b : Nat} (hg : n.g ≤ a) (hh : n.h ≤ Scale.ofNat b) :
    n.f ≤ Scale.ofNat (a + b) :=
  calc n.f = Scale.ofNat n.g + n.h := hnodes.f_eq hn
    _ ≤ Scale.ofNat a + Scale.ofNat b := add_le_add (Exact.ofNat_le_ofNat.mpr hg) hh
    _ = Scale.ofNat (a + b) := Exact.add_ofNat a b

/-- What is ranked by totals and not before another node has no smaller total. -/
theorem Frontier.f_le_of_not_before {i k : Nat} {n p : Node Exact}
    (hfirst : (rank .total k p).before (rank .total i n) = false) : n.f ≤ p.f := by
  rw [← Exact.compare_ne_lt]
  intro hlt
  rw [Ranked.before, beq_eq_false_iff_ne, Ranked.compare] at hfirst
  refine hfirst ?_
  change ((Scale.compare p.f n.f).then _).then _ = .lt
  rw [hlt]
  rfl

namespace Search

variable {h : Heuristic Exact} {fuel : Nat} {done : Finished Exact}

/-- **A search by least total finds a cheapest plan.**  Costs so far, estimates and totals are exact numbers;
a plan that is reported at less than the cap costs no more than any solution does. -/
theorem planCost_le_of_isSolution {d : Draft} (hd : d.build = .ok x.model)
    (hkind : x.options.kind = .aStar) (ha : o.Admissible) (hu : h.Used x.model o)
    (hr : x.run mon fuel (x.start h) = some done)
    (hsep : x.options.revisit = .hashedKey → done.last.Separated x)
    (hs : done.result.status = .goal) (hcap : done.result.planCost < costCap) {plan : List Nat}
    (hp : x.model.IsSolution plan) : done.result.planCost ≤ x.model.planCost plan := by
  have hw := Draft.wellFormed_of_build hd
  have hserves := serves_of_used hw (ha.holds x.model) hu
  have hplain := ha.ne_landmarkCount hserves
  obtain ⟨last, hreach, hstep⟩ := exists_last hr
  rcases finished_of_step hstep with ⟨-, rfl⟩ | ⟨i, q, n, hpop, hn, ⟨hg, rfl⟩ | ⟨-, st, rd, hst, rfl⟩⟩
  · cases hs
  · have grown := grown_of_reaches hreach
    have hcost : x.model.planCost (planTo last.nodes i) = n.g := (grown.arena.walk hn).2
    change x.model.planCost (planTo last.nodes i) < costCap at hcap
    change x.model.planCost (planTo last.nodes i) ≤ _
    rcases Nat.lt_or_ge (x.model.planCost plan) costCap with hless | hmore
    · -- some node on the way of the other solution waits
      have hadmits := ha.admits hless
      have hworth := worth_start hw hp hadmits
      obtain ⟨hcovers, hroot⟩ := covers_of_reaches hw (ha.holds x.model) hu hreach
      obtain ⟨t, hexec, hfacts⟩ := hp
      obtain ⟨k, hk, w, p₁, p₂, hwait, rfl, hrest, hsofar⟩ := hcovers.exists_waiting hsep
        (fun p q => HeuristicOptions.Admits.suffix) hworth.width (execution_iff_walk.mp hexec)
        (Situation.isGoal_iff.mpr ⟨rfl, hfacts⟩) hadmits (hroot hworth)
      rw [Model.planCost_append] at hless ⊢
      -- it is not ranked before the goal taken
      have hranks := hreach.keeps (fun _ _ hr hstep => ranks_step hr hstep)
        (ranks_start (r := .total) (h := h) (by rw [hkind]; rfl))
      have hfirst := Frontier.f_le_of_not_before (hranks.first hpop hn hk hwait)
      have happraised := hreach.keeps (fun _ _ hr hstep => appraised_step hplain hr hstep)
        (appraised_start hplain)
      have hestimate : w.h ≤ Scale.ofNat (x.model.planCost p₂) := by
        rw [happraised.estimate k w hwait]
        exact ha.plain_le hw hserves (hrest.execution rfl) (by omega)
      have hnonneg : (Scale.ofNat 0 : Exact) ≤ n.h := by
        rw [happraised.estimate i n hn]
        exact Heuristic.zero_le_plain ..
      rw [hcost, ← Exact.ofNat_le_ofNat]
      calc (Scale.ofNat n.g : Exact) ≤ n.f := grown.arena.g_le_f hn hnonneg
        _ ≤ w.f := hfirst
        _ ≤ Scale.ofNat (x.model.planCost p₁ + x.model.planCost p₂) :=
          grown.arena.f_le hwait (by omega) hestimate
    · exact hcap.le.trans hmore
  · have hgoal : st = .goal := hs
    rcases hst with rfl | rfl <;> cases hgoal

/-- The lamp can be lit by a spark. -/
theorem isSolution_lamp : (Model.lamp [0]).IsSolution [0] :=
  have inside : Execution (.lamp [0]) (Model.lamp [0]).init [.operator 0] [0] (.ofList 2 [0]) :=
    .operator rfl rfl .done
  ⟨.ofList 2 [0], show Execution (.lamp [0]) (Model.lamp [0]).init (Model.lamp [0]).network ([0] ++ [])
    (.ofList 2 [0]) from .compound (x := ⟨4, "light", [0, 1]⟩) (d := 0) rfl (by decide) rfl rfl inside .done,
    fun _ hf => hf⟩

/-- The lamp, least total first. -/
def lampByTotal : Search where
  model := .lamp [0]
  options := { kind := .aStar }

/-- By least total, the lamp is lit by its switch: a spark costs more. -/
theorem planCost_le_of_isSolution_lamp :
    ∃ done : Finished Exact, lampByTotal.run ⟨fun _ => 0, fun _ => none⟩ 9 (lampByTotal.start
        (.fresh (.decomposition (.ofModel (.lamp [0]) .cost)))) = some done ∧
      done.result.planCost = 3 ∧ done.result.planCost ≤ (Model.lamp [0]).planCost [0] := by
  have hout : (lampByTotal.run ⟨fun _ => 0, fun _ => none⟩ 9 (lampByTotal.start
      (.fresh (.decomposition (.ofModel (.lamp [0]) .cost))) : Run Exact)).map
        (fun d => (d.result.status, d.result.planCost)) = some (.goal, 3) := by
    decide +kernel
  obtain ⟨done, hr, hresult⟩ := Option.map_eq_some_iff.mp hout
  obtain ⟨hgoal, hcost⟩ := Prod.mk.inj hresult
  have hbuild : (Draft.lamp [0]).build = .ok lampByTotal.model := rfl
  have hadmissible : HeuristicOptions.Admissible { kind := .decomposition, weighting := .cost } :=
    .inr ⟨rfl, rfl⟩
  have hused : (Heuristic.fresh (.decomposition (.ofModel (.lamp [0]) .cost)) : Heuristic Exact).Used
      lampByTotal.model { kind := .decomposition, weighting := .cost } := .fresh rfl
  have hless : done.result.planCost < costCap := by
    rw [hcost]
    decide
  exact ⟨done, hr, hcost, planCost_le_of_isSolution hbuild rfl hadmissible hused hr
    (fun hk => (nomatch hk)) hgoal hless isSolution_lamp⟩

end Search

end HierPlan
