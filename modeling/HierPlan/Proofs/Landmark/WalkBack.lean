import HierPlan.Proofs.Landmark.Question
import Mathlib.Algebra.BigOperators.Group.Finset.Sigma
import Mathlib.Logic.Relation

/-!
# Proofs/Landmark/WalkBack — what a cut collects

    goal ──supporter──▸ all, weighs nothing ──supporter──▸ any ──tight──▸ all, weighs something: collected

`LandmarkCut.follow` is what a node leads on to when costs are walked back, and a node is *traced* when
the goal leads there (`LandmarkCut.Traced`).  A stack and a set of nodes seen make a depth-first search of
it, and the bound on the queue is enough for that search as well, since arcs are listed at both ends
alike.  **So every traced node that weighs something is in the cut** (`LandmarkCut.mem_cut`).
-/

namespace HierPlan

namespace LandmarkCut

variable {q : RelaxedGoal} {weights : Array Nat} {state : IdSet} {r : RelaxedCosts}

/-! ## One node -/

/-- What the walk goes on to from a node. -/
def follow (q : RelaxedGoal) (weights : Array Nat) (r : RelaxedCosts) (id : Nat) : List Nat :=
  if r.costOf id = 0 then []
  else if id = q.goal then ((r.supporterOf id).or q.wanted.head?).toList
  else
    match q.graph.node? id with
    | none => []
    | some n =>
      match n.rule with
      | .given => []
      | .any => n.predecessors.filter fun p => r.costOf p == r.costOf id
      | .all => if 0 < weights[id]?.getD 0 then [] else (r.supporterOf id).toList

/-- Whether the walk collects a node. -/
def collects (q : RelaxedGoal) (weights : Array Nat) (r : RelaxedCosts) (id : Nat) : Bool :=
  r.costOf id != 0 && id != q.goal && q.needsAll id && decide (0 < weights[id]?.getD 0)

theorem collects_iff {id : Nat} : collects q weights r id = true ↔
    r.costOf id ≠ 0 ∧ id ≠ q.goal ∧ q.needsAll id = true ∧ 0 < weights[id]?.getD 0 := by
  simp [collects, and_assoc]

/-- **One turn of the walk.** -/
theorem walkBack_cons (fuel id : Nat) (stack : List Nat) (seen : IdSet) (cut : List Nat) :
    walkBack q weights r (fuel + 1) (id :: stack) seen cut =
      if id ∈ seen then walkBack q weights r fuel stack (seen.insert id) cut
      else walkBack q weights r fuel ((follow q weights r id).reverse ++ stack) (seen.insert id)
        (if collects q weights r id = true then id :: cut else cut) := by
  rw [walkBack]
  by_cases hseen : id ∈ seen
  · rw [if_pos hseen, if_pos (by rw [IdSet.mem_def.mp hseen]; rfl)]
  · rw [if_neg hseen]
    have hnot : seen.contains id = false := Bool.eq_false_iff.mpr hseen
    by_cases hcost : r.costOf id = 0
    · simp [hnot, hcost, follow, collects]
    · rw [if_neg (by simp [hnot, hcost])]
      by_cases hgoal : id = q.goal
      · rw [if_pos hgoal]
        simp only [List.foldl_flip_cons_eq_append', follow, collects, if_neg hcost, if_pos hgoal]
        simp [hgoal]
      · rw [if_neg hgoal]
        cases hn : q.graph.node? id with
        | none => simp [follow, collects, RelaxedGoal.needsAll, hcost, hgoal, hn]
        | some n =>
          cases hr : n.rule with
          | given => simp [follow, collects, RelaxedGoal.needsAll, hcost, hgoal, hn, hr]
          | any => simp [follow, collects, RelaxedGoal.needsAll, hcost, hgoal, hn, hr]
          | all =>
            by_cases hweight : 0 < weights[id]?.getD 0
            · simp [follow, collects, RelaxedGoal.needsAll, hcost, hgoal, hn, hr, hweight]
            · simp [follow, collects, RelaxedGoal.needsAll, hcost, hgoal, hn, hr, hweight]
              cases r.supporterOf id <;> rfl

/-! ## Costs along the walk -/

section Solved

variable (h : r.Solved q weights state) (hgoal : weights[q.goal]?.getD 0 = 0)

include h in
/-- A node that needs all its feeders, weighs nothing and has a cost passes it on to its supporter. -/
theorem supporter_of_cost {id : Nat} (hid : id < q.graph.size) (hall : q.needsAll id = true)
    (hweight : weights[id]?.getD 0 = 0) (hcost : r.costOf id ≠ 0) (hcap : r.costOf id < costCap) :
    ∃ p ∈ q.feeders id, r.supporterOf id = some p ∧ r.costOf p = r.costOf id := by
  have hne : q.feeders id ≠ [] := fun hnil => hcost ((h.alone id hall hid hnil).trans hweight)
  have hpriced : ∀ p ∈ q.feeders id, r.costOf p < costCap := fun p hp =>
    Nat.lt_of_le_of_ne (h.le_cap p) fun hp' => hcap.ne (h.unpriced id hall p hp hp')
  obtain ⟨p, hp, hsup, hsum, -⟩ := h.supported id hall hne hpriced
  refine ⟨p, hp, hsup, ?_⟩
  rw [hsum, hweight, Nat.zero_add]

theorem needsAll_of_rule {id : Nat} (hne : id ≠ q.goal) {n : GraphNode}
    (hn : q.graph.node? id = some n) : q.needsAll id = (n.rule == .all) := by
  rw [RelaxedGoal.needsAll, beq_eq_false_iff_ne.mpr hne, hn]
  rfl

include h hgoal in
/-- **Costs stay the same on the way back**, and the way goes along arcs. -/
theorem feeder_of_follow {id p : Nat} (hid : id < q.graph.size) (hcap : r.costOf id < costCap)
    (hp : p ∈ follow q weights r id) : p ∈ q.feeders id ∧ r.costOf p = r.costOf id := by
  unfold follow at hp
  split at hp
  · exact absurd hp List.not_mem_nil
  rename_i hcost
  split at hp
  · rename_i hg
    subst hg
    obtain ⟨p', hp', hsup, heq⟩ := supporter_of_cost h hid q.needsAll_goal hgoal hcost hcap
    rw [hsup] at hp
    obtain rfl : p = p' := by simpa using hp
    exact ⟨hp', heq⟩
  rename_i hne
  split at hp
  · exact absurd hp List.not_mem_nil
  rename_i n hn
  have hfeeders : q.feeders id = n.predecessors := by
    rw [RelaxedGoal.feeders, if_neg hne, hn]
    rfl
  split at hp
  · exact absurd hp List.not_mem_nil
  · obtain ⟨hin, htight⟩ := List.mem_filter.mp hp
    exact ⟨hfeeders ▸ hin, beq_iff_eq.mp htight⟩
  · rename_i hr
    split at hp
    · exact absurd hp List.not_mem_nil
    · rename_i hweight
      have hall : q.needsAll id = true := by rw [needsAll_of_rule hne hn, hr]; rfl
      obtain ⟨p', hp', hsup, heq⟩ := supporter_of_cost h hid hall (Nat.eq_zero_of_not_pos hweight)
        hcost hcap
      rw [hsup] at hp
      obtain rfl : p = p' := by simpa using hp
      exact ⟨hp', heq⟩

/-- A node that needs any feeder leads on to all that carry its cost. -/
theorem mem_follow_any {id p : Nat} (hor : q.needsAll id = false)
    (hgiven : ∀ n, q.graph.node? id = some n → n.rule ≠ .given) (hcost : r.costOf id ≠ 0)
    (hp : p ∈ q.feeders id) (heq : r.costOf p = r.costOf id) : p ∈ follow q weights r id := by
  have hne : id ≠ q.goal := by
    rintro rfl
    rw [q.needsAll_goal] at hor
    cases hor
  rw [RelaxedGoal.feeders, if_neg hne] at hp
  cases hn : q.graph.node? id with
  | none =>
    rw [hn] at hp
    exact absurd hp List.not_mem_nil
  | some n =>
    rw [hn] at hp
    rw [needsAll_of_rule hne hn] at hor
    rw [follow, if_neg hcost, if_neg hne, hn]
    dsimp only
    cases hr : n.rule with
    | given => exact absurd hr (hgiven n hn)
    | all =>
      rw [hr] at hor
      cases hor
    | any => exact List.mem_filter.mpr ⟨hp, beq_iff_eq.mpr heq⟩

include h in
/-- One that needs all of them and weighs nothing leads on to its supporter. -/
theorem mem_follow_all {id : Nat} (hid : id < q.graph.size) (hall : q.needsAll id = true)
    (hweight : weights[id]?.getD 0 = 0) (hcost : r.costOf id ≠ 0) (hcap : r.costOf id < costCap) :
    ∃ p ∈ follow q weights r id, p ∈ q.feeders id ∧ r.costOf p = r.costOf id := by
  obtain ⟨p, hp, hsup, heq⟩ := supporter_of_cost h hid hall hweight hcost hcap
  refine ⟨p, ?_, hp, heq⟩
  rw [follow, if_neg hcost]
  split
  · rw [hsup]
    exact List.mem_singleton_self p
  · rename_i hne
    cases hn : q.graph.node? id with
    | none => simp [RelaxedGoal.needsAll, hne, hn] at hall
    | some n =>
      have hr : n.rule = .all := by
        rw [needsAll_of_rule hne hn] at hall
        exact beq_iff_eq.mp hall
      dsimp only
      rw [hr]
      dsimp only
      rw [if_neg (Nat.not_lt.mpr hweight.le), hsup]
      exact List.mem_singleton_self p

/-- A node leads on to few others. -/
theorem length_follow_le (q : RelaxedGoal) (weights : Array Nat) (r : RelaxedCosts) (id : Nat) :
    (follow q weights r id).length ≤ (q.feeders id).length + 1 := by
  have hone : ∀ o : Option Nat, o.toList.length ≤ (q.feeders id).length + 1 := by
    intro o
    cases o <;> simp
  unfold follow
  split
  · exact Nat.zero_le _
  split
  · exact hone _
  rename_i hne
  split
  · exact Nat.zero_le _
  rename_i n hn
  have hfeeders : q.feeders id = n.predecessors := by
    rw [RelaxedGoal.feeders, if_neg hne, hn]
    rfl
  split
  · exact Nat.zero_le _
  · rw [hfeeders]
    exact (List.length_filter_le ..).trans (Nat.le_succ _)
  · split
    · exact Nat.zero_le _
    · exact hone _

end Solved

/-! ## The search -/

/-- What a search keeps true: nodes on the stack can be reached, and a node seen leads on to nodes seen
or on the stack, and is collected if it is to be. -/
structure Walked (q : RelaxedGoal) (weights : Array Nat) (r : RelaxedCosts) (seen : IdSet)
    (stack cut : List Nat) : Prop where
  width : seen.width = q.graph.size
  known : ∀ id ∈ stack, id < q.graph.size ∧ r.costOf id < costCap
  follows : ∀ id ∈ seen, ∀ p ∈ follow q weights r id, p ∈ seen ∨ p ∈ stack
  collected : ∀ id ∈ seen, collects q weights r id = true → id ∈ cut

/-- What is still to be walked: the stack, and what nodes not seen yet lead on to. -/
def ahead (q : RelaxedGoal) (weights : Array Nat) (r : RelaxedCosts) (seen : IdSet)
    (stack : List Nat) : Nat :=
  stack.length +
    ((List.range q.graph.size).map fun k =>
      if k ∈ seen then 0 else (follow q weights r k).length).sum

section Walk

variable {seen : IdSet} {stack cut : List Nat} {id fuel : Nat}

theorem mem_insert_self (hw : seen.width = q.graph.size) (hid : id < q.graph.size) {k : Nat} :
    k ∈ seen.insert id ↔ k ∈ seen ∨ k = id := by
  rw [IdSet.mem_insert]
  constructor
  · exact Or.imp_right And.left
  · exact Or.imp_right fun hk => ⟨hk, hw ▸ hk ▸ hid⟩

/-- Passing a node over takes it off what is ahead. -/
theorem ahead_again_lt (hw : seen.width = q.graph.size) (hid : id < q.graph.size) (hseen : id ∈ seen) :
    ahead q weights r (seen.insert id) stack < ahead q weights r seen (id :: stack) := by
  have hsame : ∀ k, k ∈ seen.insert id ↔ k ∈ seen := fun k =>
    (mem_insert_self hw hid).trans (or_iff_left_of_imp fun hk => hk ▸ hseen)
  unfold ahead
  simp only [hsame]
  rw [List.length_cons]
  omega

/-- A new node was ahead together with what it leads on to. -/
theorem ahead_visit_lt (hw : seen.width = q.graph.size) (hid : id < q.graph.size) (hseen : id ∉ seen) :
    ahead q weights r (seen.insert id) ((follow q weights r id).reverse ++ stack) <
      ahead q weights r seen (id :: stack) := by
  have hsum := RelaxedCosts.sum_outside_insert (fun k => (follow q weights r k).length) hid hw hseen
  unfold ahead
  rw [List.length_append, List.length_reverse, List.length_cons]
  omega

/-- A node met again is passed over. -/
theorem Walked.again (hwalk : Walked q weights r seen (id :: stack) cut) (hseen : id ∈ seen) :
    Walked q weights r (seen.insert id) stack cut := by
  have hmem : ∀ {k : Nat}, k ∈ seen.insert id ↔ k ∈ seen := fun {k} =>
    (mem_insert_self hwalk.width (hwalk.known id List.mem_cons_self).1).trans
      (or_iff_left_of_imp fun hk => hk ▸ hseen)
  refine ⟨by rw [IdSet.width_insert, hwalk.width], fun k hk => hwalk.known k (List.mem_cons_of_mem _ hk),
    fun k hk p hp => ?_, fun k hk => hwalk.collected k (hmem.mp hk)⟩
  rcases hwalk.follows k (hmem.mp hk) p hp with hin | hin
  · exact .inl (hmem.mpr hin)
  · rcases List.mem_cons.mp hin with rfl | hin
    · exact .inl (hmem.mpr hseen)
    · exact .inr hin

/-- A new node puts what it leads on to on the stack. -/
theorem Walked.visit (hq : q.Sound) (h : r.Solved q weights state)
    (hgoal : weights[q.goal]?.getD 0 = 0) (hwalk : Walked q weights r seen (id :: stack) cut) :
    Walked q weights r (seen.insert id) ((follow q weights r id).reverse ++ stack)
      (if collects q weights r id = true then id :: cut else cut) := by
  obtain ⟨hid, hcap⟩ := hwalk.known id List.mem_cons_self
  have hmem : ∀ {k : Nat}, k ∈ seen.insert id ↔ k ∈ seen ∨ k = id := mem_insert_self hwalk.width hid
  refine ⟨by rw [IdSet.width_insert, hwalk.width], fun k hk => ?_, fun k hk p hp => ?_, fun k hk hc => ?_⟩
  · rcases List.mem_append.mp hk with hk | hk
    · obtain ⟨hin, heq⟩ := feeder_of_follow h hgoal hid hcap (List.mem_reverse.mp hk)
      exact ⟨hq.feeders id k hin, heq ▸ hcap⟩
    · exact hwalk.known k (List.mem_cons_of_mem _ hk)
  · rw [hmem, List.mem_append, List.mem_reverse]
    rcases hmem.mp hk with hk | rfl
    · rcases hwalk.follows k hk p hp with hin | hin
      · exact .inl (.inl hin)
      · rcases List.mem_cons.mp hin with rfl | hin
        · exact .inl (.inr rfl)
        · exact .inr (.inr hin)
    · exact .inr (.inl hp)
  · rcases hmem.mp hk with hk | rfl
    · have hin := hwalk.collected k hk hc
      split
      · exact List.mem_cons_of_mem _ hin
      · exact hin
    · rw [if_pos hc]
      exact List.mem_cons_self

/-- **A walk with enough fuel ends with an empty stack.** -/
theorem Walked.finish (hq : q.Sound) (h : r.Solved q weights state)
    (hgoal : weights[q.goal]?.getD 0 = 0) (hwalk : Walked q weights r seen stack cut)
    (hfuel : ahead q weights r seen stack ≤ fuel) :
    ∃ seen', Walked q weights r seen' [] (walkBack q weights r fuel stack seen cut) ∧
      (∀ k ∈ seen, k ∈ seen') ∧ ∀ k ∈ stack, k ∈ seen' := by
  have hdone : ∀ {seen cut}, Walked q weights r seen [] cut → Walked q weights r seen [] cut.reverse :=
    fun hw => ⟨hw.width, hw.known, hw.follows, fun k hk hc => List.mem_reverse.mpr (hw.collected k hk hc)⟩
  induction fuel generalizing seen stack cut with
  | zero =>
    have hnil : stack = [] := List.eq_nil_of_length_eq_zero (by unfold ahead at hfuel; omega)
    subst hnil
    exact ⟨seen, hdone hwalk, fun k hk => hk, fun k hk => absurd hk List.not_mem_nil⟩
  | succ fuel ih =>
    cases stack with
    | nil =>
      exact ⟨seen, hdone hwalk, fun k hk => hk, fun k hk => absurd hk List.not_mem_nil⟩
    | cons id stack =>
      obtain ⟨hid, -⟩ := hwalk.known id List.mem_cons_self
      have hmem : ∀ {k : Nat}, k ∈ seen.insert id ↔ k ∈ seen ∨ k = id :=
        mem_insert_self hwalk.width hid
      rw [walkBack_cons]
      by_cases hseen : id ∈ seen
      · rw [if_pos hseen]
        have hless : ahead q weights r (seen.insert id) stack < fuel + 1 :=
          (ahead_again_lt hwalk.width hid hseen).trans_le hfuel
        obtain ⟨seen', hend, hold, hstack⟩ := ih (hwalk.again hseen) (Nat.le_of_lt_succ hless)
        refine ⟨seen', hend, fun k hk => hold k (hmem.mpr (.inl hk)), List.forall_mem_cons.mpr
          ⟨hold id (hmem.mpr (.inr rfl)), hstack⟩⟩
      · rw [if_neg hseen]
        have hless : ahead q weights r (seen.insert id) ((follow q weights r id).reverse ++ stack) < fuel + 1 :=
          (ahead_visit_lt hwalk.width hid hseen).trans_le hfuel
        obtain ⟨seen', hend, hold, hstack⟩ := ih (hwalk.visit hq h hgoal) (Nat.le_of_lt_succ hless)
        refine ⟨seen', hend, fun k hk => hold k (hmem.mpr (.inl hk)), List.forall_mem_cons.mpr
          ⟨hold id (hmem.mpr (.inr rfl)), fun k hk => hstack k (List.mem_append_right _ hk)⟩⟩

end Walk

/-! ## The cut -/

/-- **Arcs counted where they end are as many as arcs counted where they start.** -/
theorem sum_length_feeders (hq : q.Sound) :
    ((List.range q.graph.size).map fun id => (q.feeders id).length).sum =
      ((List.range q.graph.size).map fun id => (q.targets id).length).sum := by
  have hlength : ∀ ids : List Nat, (∀ k ∈ ids, k < q.graph.size) →
      ids.length = ∑ k ∈ Finset.range q.graph.size, ids.count k := by
    intro ids hids
    have hcard := Multiset.sum_count_eq_card (m := (ids : Multiset Nat)) fun k hk =>
      Finset.mem_range.mpr (hids k hk)
    simpa only [Multiset.coe_count, Multiset.coe_card] using hcard.symm
  have hrange : ∀ f : Nat → Nat, ((List.range q.graph.size).map f).sum =
      ∑ k ∈ Finset.range q.graph.size, f k := fun f => rfl
  have htargets : ∀ id, ∀ t ∈ q.targets id, t < q.graph.size := fun id t ht =>
    RelaxedCosts.lt_size_of_feeders hq ((RelaxedGoal.mem_targets_iff hq).mp ht)
  calc ((List.range q.graph.size).map fun id => (q.feeders id).length).sum
      = ∑ t ∈ Finset.range q.graph.size, ∑ id ∈ Finset.range q.graph.size, (q.feeders t).count id := by
        rw [hrange]
        exact Finset.sum_congr rfl fun t _ => hlength _ (hq.feeders t)
    _ = ∑ id ∈ Finset.range q.graph.size, ∑ t ∈ Finset.range q.graph.size, (q.targets id).count t := by
        rw [Finset.sum_comm]
        exact Finset.sum_congr rfl fun id _ => Finset.sum_congr rfl fun t _ => (hq.mirror id t).symm
    _ = ((List.range q.graph.size).map fun id => (q.targets id).length).sum := by
        rw [hrange]
        exact Finset.sum_congr rfl fun id _ => (hlength _ (htargets id)).symm

/-- **The bound on the queue is enough for a walk back.** -/
theorem ahead_start_le (hq : q.Sound) (weights : Array Nat) (r : RelaxedCosts) :
    ahead q weights r (.empty q.graph.size) [q.goal] ≤ q.queueBound := by
  have hnone : ∀ k, k ∉ IdSet.empty q.graph.size := fun k => IdSet.not_mem_empty
  have hfollow : ((List.range q.graph.size).map fun k => (follow q weights r k).length).sum ≤
      ((List.range q.graph.size).map fun k => (q.feeders k).length + 1).sum :=
    List.sum_le_sum fun k _ => length_follow_le q weights r k
  have hones : ((List.range q.graph.size).map fun _ => 1).sum = q.graph.size := by simp
  have harcs : (List.range q.graph.size).foldl (fun arcs id => arcs + (q.targets id).length) 0 =
      ((List.range q.graph.size).map fun id => (q.targets id).length).sum := by
    rw [List.sum_eq_foldl, List.foldl_map]
  rw [List.sum_map_add, sum_length_feeders hq, hones] at hfollow
  unfold ahead RelaxedGoal.queueBound
  rw [harcs]
  simp only [hnone, if_false, List.length_singleton]
  omega

/-- The nodes a walk back from the goal comes to. -/
def Traced (q : RelaxedGoal) (weights : Array Nat) (r : RelaxedCosts) (id : Nat) : Prop :=
  Relation.ReflTransGen (fun a b => b ∈ follow q weights r a) q.goal id

/-- **Every traced node that weighs something is in the cut.** -/
theorem mem_cut (hq : q.Sound) (h : r.Solved q weights state) (hgoal : weights[q.goal]?.getD 0 = 0)
    (hcap : r.costOf q.goal < costCap) {id : Nat} (ht : Traced q weights r id)
    (hc : collects q weights r id = true) : id ∈ cut q weights r := by
  have hnone : ∀ k, k ∉ IdSet.empty q.graph.size := fun k => IdSet.not_mem_empty
  have hstart : Walked q weights r (.empty q.graph.size) [q.goal] [] :=
    ⟨IdSet.width_empty _, fun k hk => List.mem_singleton.mp hk ▸ ⟨hq.goal, hcap⟩,
      fun k hk => absurd hk (hnone k), fun k hk => absurd hk (hnone k)⟩
  obtain ⟨seen, hend, -, hroot⟩ := hstart.finish hq h hgoal (ahead_start_le hq weights r)
  have hseen : id ∈ seen := by
    clear hc
    induction ht with
    | refl => exact hroot q.goal (List.mem_singleton_self _)
    | tail _ hstep ih =>
      exact (hend.follows _ ih _ hstep).resolve_right List.not_mem_nil
  exact hend.collected id hseen hc

end LandmarkCut

end HierPlan
