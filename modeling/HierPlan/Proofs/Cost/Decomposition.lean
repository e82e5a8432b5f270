import HierPlan.Cost.Decomposition
import HierPlan.Execution
import HierPlan.Proofs.Graph.Incoming
import Mathlib.Algebra.Order.BigOperators.Group.List
import Mathlib.Algebra.Order.Group.Nat
import Mathlib.Data.Nat.Cast.Basic

/-!
# Proofs/Cost/Decomposition — no execution weighs less than its tasks cost

    cost (operator) ≤ its weight
    cost (method)   ≤ cost (subtask) + … + cost (subtask)
    cost (task)     ≤ cost (method), for each method that refines it

Sweeps lower costs until these hold everywhere (`AndOrGraph.decompositionCosts_settled`).
**So the costs of a network never exceed what an execution of it weighs**
(`DecompositionCosts.sum_le_planWeight`): the estimate is there and is a lower bound
(`DecompositionCosts.network?_le`).
-/

namespace HierPlan

/-! ## Sums that stop at the cap -/

theorem cappedTotal?_cons (first c : Nat) (costs : List Nat) :
    cappedTotal? first (c :: costs) =
      if c = costCap then none else cappedTotal? (cappedAdd first c) costs := by
  unfold cappedTotal?
  rw [List.foldlM_cons]
  split <;> rfl

/-- **Below the cap a capped sum is the sum.** -/
theorem cappedTotal?_eq_some {first : Nat} {costs : List Nat} (h : first + costs.sum < costCap) :
    cappedTotal? first costs = some (first + costs.sum) := by
  induction costs generalizing first with
  | nil => rfl
  | cons c costs ih =>
    rw [List.sum_cons] at h ⊢
    rw [cappedTotal?_cons, if_neg (by omega), cappedAdd_eq (by omega), ih (by omega), Nat.add_assoc]

namespace DecompositionCosts

variable {g : AndOrGraph} {t : DecompositionCosts} {id : Nat}

/-! ## Sweeps -/

/-- Recomputing a node lowers nothing. -/
def Quiet (t : DecompositionCosts) (g : AndOrGraph) (id : Nat) : Prop :=
  ∀ n, g.node? id = some n → t.cost id ≤ t.evaluate n

theorem cost_setIfInBounds {k c : Nat} (hid : id < t.size) :
    cost (t.setIfInBounds id c) k = if k = id then c else t.cost k := by
  unfold cost
  rw [Array.getElem?_setIfInBounds]
  by_cases hk : k = id
  · subst hk
    simp [hid]
  · rw [if_neg (Ne.symm hk), if_neg hk]

theorem revise_cases (t : DecompositionCosts) (g : AndOrGraph) (id : Nat) :
    (t.revise g id = (t, false) ∧ Quiet t g id) ∨
      ∃ n, g.node? id = some n ∧ t.evaluate n < t.cost id ∧
        t.revise g id = (t.setIfInBounds id (t.evaluate n), true) := by
  unfold revise
  split
  · rename_i hnone
    refine .inl ⟨rfl, fun n hn => ?_⟩
    rw [hnone] at hn
    cases hn
  · rename_i n hn
    dsimp only
    split
    · rename_i hlt
      exact .inr ⟨n, hn, hlt, rfl⟩
    · rename_i hle
      refine .inl ⟨rfl, fun n' hn' => ?_⟩
      obtain rfl := Option.some.inj (hn.symm.trans hn')
      exact Nat.le_of_not_lt hle

/-- A table of a graph, capped. -/
structure Fits (t : DecompositionCosts) (g : AndOrGraph) : Prop where
  size : t.size = g.size
  le_cap : ∀ id, t.cost id ≤ costCap

theorem Fits.lower (h : Fits t g) {n : GraphNode} (hn : g.node? id = some n)
    (hlt : t.evaluate n < t.cost id) : Fits (t.setIfInBounds id (t.evaluate n)) g := by
  refine ⟨(Array.size_setIfInBounds ..).trans h.size, fun k => ?_⟩
  rw [cost_setIfInBounds (h.size ▸ AndOrGraph.lt_size_of_node? hn)]
  split
  · exact hlt.le.trans (h.le_cap id)
  · exact h.le_cap k

/-- All costs together. -/
def total (t : DecompositionCosts) (g : AndOrGraph) : Nat :=
  ((List.range g.size).map t.cost).sum

/-- **Lowering a node takes something off.** -/
theorem Fits.total_lower (h : Fits t g) {n : GraphNode} (hn : g.node? id = some n)
    (hlt : t.evaluate n < t.cost id) :
    total (t.setIfInBounds id (t.evaluate n)) g < t.total g := by
  have hid := AndOrGraph.lt_size_of_node? hn
  refine List.sum_lt_sum _ _ (fun k _ => ?_) ⟨id, List.mem_range.mpr hid, ?_⟩
  · rw [cost_setIfInBounds (h.size ▸ hid)]
    split
    · rename_i hk
      exact hk ▸ hlt.le
    · exact le_rfl
  · rw [cost_setIfInBounds (h.size ▸ hid), if_pos rfl]
    exact hlt

/-- What a sweep does over some ids, after `b` says whether anything changed before. -/
theorem Fits.foldl_revise (ids : List Nat) {t : DecompositionCosts} (h : Fits t g) (b : Bool) :
    ∃ t' b', ids.foldl (fun (t, changed) id =>
        let (t, now) := revise t g id
        (t, changed || now)) (t, b) = (t', b') ∧
      Fits t' g ∧ t'.total g ≤ t.total g ∧ (b' = true → b = true ∨ t'.total g < t.total g) ∧
      (b' = false → b = false ∧ t' = t ∧ ∀ id ∈ ids, t.Quiet g id) := by
  induction ids generalizing t b with
  | nil =>
    exact ⟨t, b, rfl, h, le_rfl, .inl, fun hb => ⟨hb, rfl, fun _ hid => absurd hid List.not_mem_nil⟩⟩
  | cons id ids ih =>
    rw [List.foldl_cons]
    rcases revise_cases t g id with ⟨hr, hq⟩ | ⟨n, hn, hlt, hr⟩
    · obtain ⟨t', b', hf, hfit, hle, hb, hsame⟩ := ih h b
      refine ⟨t', b', by dsimp only; rw [hr, Bool.or_false]; exact hf, hfit, hle, hb, fun hc => ?_⟩
      obtain ⟨hold, ht, hquiet⟩ := hsame hc
      exact ⟨hold, ht, List.forall_mem_cons.mpr ⟨hq, hquiet⟩⟩
    · obtain ⟨t', b', hf, hfit, hle, -, hsame⟩ := ih (h.lower hn hlt) true
      have hless := h.total_lower hn hlt
      refine ⟨t', b', by dsimp only; rw [hr, Bool.or_true]; exact hf, hfit, by omega,
        fun _ => .inr (by omega), fun hc => ?_⟩
      exact absurd (hsame hc).1 Bool.noConfusion

/-- **So many sweeps are enough.** -/
theorem Fits.settle {fuel : Nat} (h : Fits t g) (hfuel : t.total g < fuel) :
    Fits (settle g fuel t) g ∧ ∀ id, Quiet (DecompositionCosts.settle g fuel t) g id := by
  induction fuel generalizing t with
  | zero => exact absurd hfuel (Nat.not_lt_zero _)
  | succ fuel ih =>
    obtain ⟨t', b', hf, hfit, -, hb, hsame⟩ := h.foldl_revise g.ids false
    have hsweep : t.sweep g = (t', b') := hf
    unfold DecompositionCosts.settle
    rw [hsweep]
    dsimp only
    cases b' with
    | true =>
      rcases hb rfl with hb | hlt
      · cases hb
      · exact ih hfit (by omega)
    | false =>
      obtain ⟨-, rfl, hquiet⟩ := hsame rfl
      refine ⟨h, fun id n hn => hquiet id ?_ n hn⟩
      exact List.mem_filter.mpr ⟨List.mem_range.mpr (AndOrGraph.lt_size_of_node? hn), by rw [hn]; rfl⟩

theorem fits_replicate (g : AndOrGraph) : Fits (Array.replicate g.size costCap) g := by
  refine ⟨Array.size_replicate, fun id => ?_⟩
  unfold cost
  rw [Array.getElem?_replicate]
  split <;> exact le_rfl

/-- All costs together are no more than as many caps. -/
theorem Fits.total_le (h : Fits t g) : t.total g ≤ g.size * costCap := by
  have hterm : ∀ x ∈ (List.range g.size).map t.cost, x ≤ costCap := by
    intro x hx
    obtain ⟨k, -, rfl⟩ := List.mem_map.mp hx
    exact h.le_cap k
  have hsum := List.sum_le_card_nsmul _ _ hterm
  rwa [List.length_map, List.length_range, nsmul_eq_mul, Nat.cast_id] at hsum

end DecompositionCosts

/-- **A table of costs is settled.** -/
theorem AndOrGraph.decompositionCosts_settled (g : AndOrGraph) :
    DecompositionCosts.Fits g.decompositionCosts g ∧
      ∀ id, DecompositionCosts.Quiet g.decompositionCosts g id :=
  (DecompositionCosts.fits_replicate g).settle
    (Nat.lt_succ_of_le (DecompositionCosts.fits_replicate g).total_le)

/-! ## Networks -/

/-- What the operators of a plan weigh together. -/
def Model.planWeight (m : Model) (w : Weighting) (plan : List Nat) : Nat :=
  (plan.map (View.operatorWeight m (.decomposition w))).sum

/-- Weighed by cost, a plan weighs what it costs. -/
theorem Model.planWeight_cost (m : Model) (plan : List Nat) :
    m.planWeight .cost plan = m.planCost plan := by
  induction plan with
  | nil => rfl
  | cons i plan ih =>
    rw [planCost, ← ih]
    rfl

namespace DecompositionCosts

variable {m : Model} {w : Weighting}

/-- The least of some numbers and a bound is no more than any of the numbers. -/
theorem foldl_min_le {xs : List Nat} {b x : Nat} (hx : x ∈ xs) : xs.foldl min b ≤ x :=
  have hleast : (b :: xs).min? = some (xs.foldl min b) := rfl
  (List.min?_eq_some_iff.mp hleast).2 x (List.mem_cons_of_mem b hx)

/-- The node of an operator weighs what it counts and depends on nothing. -/
theorem exists_node_operator (hw : m.WellFormed) {i : Nat} (hi : i < m.operators.size) :
    ∃ n, ((View.decomposition w).graph m).node? (m.operatorId i) = some n ∧ n.rule = .all ∧
      n.weight = View.operatorWeight m (.decomposition w) i ∧ n.predecessors = [] := by
  obtain ⟨n, hn, hl⟩ := View.exists_node (View.label_operator (v := .decomposition w) hi)
  have hrule : n.rule = .all := by rw [hl]
  refine ⟨n, hn, hrule, by rw [hl], List.eq_nil_iff_forall_not_mem.mpr fun p hp => ?_⟩
  have hfeeds := (View.mem_predecessors hw hn (by rw [hrule]; exact fun h => nomatch h)).mp hp
  have up : View.decomposition w ≠ .topDown := fun h => nomatch h
  exact nomatch ((View.Feeds.to_operator hw up (Array.getElem?_eq_getElem hi)).mp hfeeds).1

/-- An operator costs at most its weight. -/
theorem cost_operator_le (hw : m.WellFormed) {i : Nat} (hi : i < m.operators.size) :
    (ofModel m w).cost (m.operatorId i) ≤ View.operatorWeight m (.decomposition w) i := by
  obtain ⟨n, hn, hrule, hweight, hpreds⟩ := exists_node_operator (w := w) hw hi
  have hquiet := (AndOrGraph.decompositionCosts_settled _).2 _ n hn
  rw [evaluate, hrule, hpreds] at hquiet
  exact hquiet.trans hweight.le

/-- A task costs at most what any of its methods costs. -/
theorem cost_compound_le (hw : m.WellFormed) {i : Nat} {d : Method} (known : m.methods[i]? = some d) :
    (ofModel m w).cost (m.compoundId d.task) ≤ (ofModel m w).cost (m.methodId i) := by
  obtain ⟨n, hn, hl⟩ :=
    View.exists_node (View.label_compound (v := .decomposition w) (hw.methods _ _ known).task)
  have hrule : n.rule = .any := by
    rw [hl]
    simp [View.taskRule]
  have hmem : m.methodId i ∈ n.predecessors :=
    (View.mem_predecessors hw hn (by rw [hrule]; exact fun h => nomatch h)).mpr
      (.refines (fun h => nomatch h) known)
  have hquiet := (AndOrGraph.decompositionCosts_settled _).2 _ n hn
  rw [evaluate, hrule] at hquiet
  exact hquiet.trans (foldl_min_le (List.mem_map_of_mem hmem))

/-- A method is fed by its subtasks, one arc for each. -/
theorem sources_method (hw : m.WellFormed) {i : Nat} {d : Method} (known : m.methods[i]? = some d) :
    AndOrGraph.sources ((View.decomposition w).arcs m) (m.methodId i) = d.network.map m.taskId := by
  have hs : (View.Slot.component (.method i)).Known m := (Array.getElem?_eq_some_iff.mp known).1
  have hsubtasks : ∀ t, (View.decomposition w).subtaskId m t = m.taskId t := fun t => by cases t <;> rfl
  refine (View.Slot.sources_arcs hw hs).trans ?_
  simp [View.Slot.incoming, known, View.conditions, View.hasFacts, hsubtasks]

/-- A method costs at most what its subtasks cost together. -/
theorem cost_method_le (hw : m.WellFormed) {i : Nat} {d : Method} (known : m.methods[i]? = some d) :
    (ofModel m w).cost (m.methodId i) ≤
      (d.network.map fun t => (ofModel m w).cost (m.taskId t)).sum := by
  obtain ⟨n, hn, hl⟩ := View.exists_node (View.label_method (v := .decomposition w)
    (Array.getElem?_eq_some_iff.mp known).1)
  have hrule : n.rule = .all := by rw [hl]
  have hweight : n.weight = 0 := by rw [hl]
  have hpreds : n.predecessors.map (ofModel m w).cost =
      d.network.map fun t => (ofModel m w).cost (m.taskId t) := by
    rw [View.predecessors_eq hw hn (by rw [hrule]; exact fun h => nomatch h),
      sources_method hw known, List.map_map]
    rfl
  obtain ⟨hfit, hquiet⟩ := AndOrGraph.decompositionCosts_settled ((View.decomposition w).graph m)
  by_cases hcap : (d.network.map fun t => (ofModel m w).cost (m.taskId t)).sum < costCap
  · have hcost := hquiet _ n hn
    rw [evaluate, hrule] at hcost
    change _ ≤ (cappedTotal? n.weight (n.predecessors.map (ofModel m w).cost)).getD costCap at hcost
    rw [hpreds, hweight, cappedTotal?_eq_some (by rwa [Nat.zero_add]), Nat.zero_add] at hcost
    exact hcost
  · exact (hfit.le_cap _).trans (Nat.le_of_not_lt hcap)

/-- **The tasks of a network cost at most what carrying it out weighs.** -/
theorem sum_le_planWeight (hw : m.WellFormed) {s t : IdSet} {network : List Task} {plan : List Nat}
    (h : Execution m s network plan t) :
    (network.map fun x => (ofModel m w).cost (m.taskId x)).sum ≤ m.planWeight w plan := by
  induction h with
  | done => exact le_rfl
  | @operator s t i o rest plan known applicable after ih =>
    rw [List.map_cons, List.sum_cons, Model.planWeight, List.map_cons, List.sum_cons]
    exact Nat.add_le_add (cost_operator_le hw (Array.getElem?_eq_some_iff.mp known).1) ih
  | @compound s u t a d x y rest plan more known listed chosen applicable inside after ih₁ ih₂ =>
    obtain ⟨y', chosen', rfl⟩ := (hw.listed a x known d).mp listed
    obtain rfl := Option.some.inj (chosen.symm.trans chosen')
    rw [List.map_cons, List.sum_cons, Model.planWeight, List.map_append, List.sum_append]
    refine Nat.add_le_add ?_ ih₂
    exact (cost_compound_le hw chosen).trans ((cost_method_le hw chosen).trans ih₁)

/-- **An execution that weighs less than the cap bounds the estimate of its network.** -/
theorem network?_le (hw : m.WellFormed) {s t : IdSet} {network : List Task} {plan : List Nat}
    (h : Execution m s network plan t) (hcap : m.planWeight w plan < costCap) :
    ∃ c, (ofModel m w).network? m network = some c ∧ c ≤ m.planWeight w plan := by
  have hsum := sum_le_planWeight (w := w) hw h
  refine ⟨_, ?_, hsum⟩
  rw [network?, cappedTotal?_eq_some (by omega), Nat.zero_add]

end DecompositionCosts

end HierPlan
