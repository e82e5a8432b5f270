import HierPlan.Proofs.Cost.Derived
import HierPlan.Proofs.Cost.MaxCost
import HierPlan.Proofs.Cost.Range

/-!
# Proofs/Landmark/Cut — what a cut holds

    goal ──follow──▸ … ──follow──▸ id      every id on the way costs what the goal does
                                   └── needs all its feeders and weighs something: in the cut

A walk back ends with its stack empty, and more turns would change nothing (`LandmarkCut.walkBack_of_le`).  **A cut
holds exactly the traced nodes that are to be collected, each once** (`LandmarkCut.mem_cut_iff`,
`LandmarkCut.nodup_cut`).

**A goal that costs something and can be reached has a cut** (`LandmarkCut.cut_ne_nil`).  On cycles of nodes that
weigh nothing a walk back might go round for ever; what a pass finds was derived, however, and a derivation at
the goal's cost would avoid traced nodes up to the goal itself.
-/

namespace HierPlan

/-- Weights that a pass can sum without coming to the cap. -/
structure RelaxedGoal.Fits (q : RelaxedGoal) (weights : Array Nat) : Prop where
  total : q.totalWeight weights < costCap
  goal : weights[q.goal]?.getD 0 = 0

theorem RelaxedGoal.Fits.solved {q : RelaxedGoal} {weights : Array Nat} (h : q.Fits weights) (hq : q.Sound)
    (state : IdSet) : (RelaxedCosts.compute q weights state).Solved q weights state :=
  RelaxedCosts.solved_compute hq h.total h.goal

namespace LandmarkCut

variable {q : RelaxedGoal} {weights : Array Nat} {state : IdSet} {r : RelaxedCosts} {id : Nat}

section Walk

variable (hq : q.Sound) (h : r.Solved q weights state) (hgoal : weights[q.goal]?.getD 0 = 0)
  (hcap : r.costOf q.goal < costCap)

include hq h hgoal hcap

/-- **A traced node is in the graph and costs what the goal does.** -/
theorem Traced.costOf_eq (ht : Traced q weights r id) : id < q.graph.size ∧ r.costOf id = r.costOf q.goal := by
  induction ht with
  | refl => exact ⟨hq.goal, rfl⟩
  | tail _ hstep ih =>
    obtain ⟨hid, heq⟩ := ih
    obtain ⟨hin, hsame⟩ := feeder_of_follow h hgoal hid (heq ▸ hcap) hstep
    exact ⟨hq.feeders _ _ hin, hsame.trans heq⟩

/-! ## The turns of a walk -/

/-- What a walk back has come to: traced nodes, and a cut of those to be collected, each once. -/
structure Collected (q : RelaxedGoal) (weights : Array Nat) (r : RelaxedCosts) (stack : List Nat) (seen : IdSet)
    (cut : List Nat) : Prop where
  width : seen.width = q.graph.size
  traced : ∀ id ∈ stack, Traced q weights r id
  seen : ∀ id ∈ cut, id ∈ seen
  collected : ∀ id ∈ cut, Traced q weights r id ∧ collects q weights r id = true
  nodup : cut.Nodup

/-- **A walk collects traced nodes, none of them twice.** -/
theorem Walks.collected {turns : Nat} {stack cut : List Nat} {seen : IdSet}
    (hwalk : Walks q weights r turns stack seen cut) : Collected q weights r stack seen cut := by
  induction hwalk with
  | start =>
    exact ⟨rfl, fun id hid => List.mem_singleton.mp hid ▸ .refl, fun id hid => absurd hid List.not_mem_nil,
      fun id hid => absurd hid List.not_mem_nil, List.nodup_nil⟩
  | again before old ih =>
    exact ⟨(IdSet.width_insert ..).trans ih.width, fun k hk => ih.traced k (List.mem_cons_of_mem _ hk),
      fun k hk => IdSet.mem_insert.mpr (.inl (ih.seen k hk)), ih.collected, ih.nodup⟩
  | @visit _ id stack cut seen before new ih =>
    have ht : Traced q weights r id := ih.traced id List.mem_cons_self
    have hmem : ∀ {k : Nat}, k ∈ seen.insert id ↔ k ∈ seen ∨ k = id :=
      mem_insert_self ih.width (ht.costOf_eq hq h hgoal hcap).1
    refine ⟨(IdSet.width_insert ..).trans ih.width, fun k hk => ?_, fun k hk => hmem.mpr ?_, fun k hk => ?_, ?_⟩
    · rcases List.mem_append.mp hk with hk | hk
      · exact ht.tail (List.mem_reverse.mp hk)
      · exact ih.traced k (List.mem_cons_of_mem _ hk)
    · split at hk
      · exact (List.mem_cons.mp hk).symm.imp_left (ih.seen k)
      · exact .inl (ih.seen k hk)
    · split at hk
      · rename_i hc
        rcases List.mem_cons.mp hk with rfl | hk
        · exact ⟨ht, hc⟩
        · exact ih.collected k hk
      · exact ih.collected k hk
    · split
      · exact List.nodup_cons.mpr ⟨fun hin => new (ih.seen id hin), ih.nodup⟩
      · exact ih.nodup

/-- Every turn takes from what is ahead, so a walk comes to its end. -/
theorem Walks.exists_end {turns : Nat} {stack cut : List Nat} {seen : IdSet}
    (hwalk : Walks q weights r turns stack seen cut) : ∃ turns' ≤ turns + ahead q weights r seen stack,
      ∃ seen' cut', Walks q weights r turns' [] seen' cut' := by
  generalize hleft : ahead q weights r seen stack = left
  induction left using Nat.strong_induction_on generalizing turns stack seen cut with
  | _ left ih =>
    cases stack with
    | nil => exact ⟨turns, Nat.le_add_right .., seen, cut, hwalk⟩
    | cons id stack =>
      have hin := hwalk.collected hq h hgoal hcap
      have hid := ((hin.traced id List.mem_cons_self).costOf_eq hq h hgoal hcap).1
      by_cases hseen : id ∈ seen
      · have hless : ahead q weights r (seen.insert id) stack < ahead q weights r seen (id :: stack) :=
          ahead_again_lt hin.width hid hseen
        obtain ⟨turns', hle, hend⟩ := ih _ (hleft ▸ hless) (hwalk.again hseen) rfl
        exact ⟨turns', by omega, hend⟩
      · have hless : ahead q weights r (seen.insert id) ((follow q weights r id).reverse ++ stack) <
            ahead q weights r seen (id :: stack) := ahead_visit_lt hin.width hid hseen
        obtain ⟨turns', hle, hend⟩ := ih _ (hleft ▸ hless) (hwalk.visit hseen) rfl
        exact ⟨turns', by omega, hend⟩

/-- **A walk back ends with its stack empty**, and more turns than it is given would change nothing. -/
theorem walkBack_of_le {fuel : Nat} (hfuel : q.queueBound ≤ fuel) :
    walkBack q weights r fuel [q.goal] (.empty q.graph.size) [] = cut q weights r := by
  obtain ⟨turns, hle, seen, cut', hwalk⟩ := Walks.exists_end hq h hgoal hcap .start
  rw [Nat.zero_add] at hle
  have hbound : turns ≤ q.queueBound := hle.trans (ahead_start_le hq weights r)
  have hend : ∀ more, walkBack q weights r (turns + more) [q.goal] (.empty q.graph.size) [] = cut'.reverse := by
    intro more
    rw [hwalk.walkBack_eq]
    cases more with
    | zero => rw [walkBack]
    | succ more => rw [walkBack]; exact Nat.succ_ne_zero more
  obtain ⟨more, rfl⟩ := Nat.exists_eq_add_of_le (hbound.trans hfuel)
  obtain ⟨more', hmore'⟩ := Nat.exists_eq_add_of_le hbound
  rw [hend, cut, hmore', hend]

/-! ## The cut -/

/-- **A cut holds the traced nodes that are to be collected.** -/
theorem mem_cut_iff : id ∈ cut q weights r ↔ Traced q weights r id ∧ collects q weights r id = true := by
  refine ⟨fun hid => ?_, fun hid => mem_cut hq h hgoal hcap hid.1 hid.2⟩
  obtain ⟨_, _, _, _, hwalk, hend⟩ := Walks.exists_walkBack (.start : Walks q weights r 0 _ _ _) q.queueBound
  rw [cut, hend, List.mem_reverse] at hid
  exact (hwalk.collected hq h hgoal hcap).collected id hid

theorem nodup_cut : (cut q weights r).Nodup := by
  obtain ⟨_, _, _, _, hwalk, hend⟩ := Walks.exists_walkBack (.start : Walks q weights r 0 _ _ _) q.queueBound
  rw [cut, hend, List.nodup_reverse]
  exact (hwalk.collected hq h hgoal hcap).nodup

end Walk

/-! ## No goal without a cut -/

/-- A node is found at some cost without a walk back from the goal coming by at that cost. -/
def Untraced (q : RelaxedGoal) (weights : Array Nat) (r : RelaxedCosts) (id c : Nat) : Prop :=
  r.costOf id ≤ c ∧ (c = r.costOf q.goal → ¬ Traced q weights r id)

/-- **If nothing is collected, what is untraced is closed under the rules.** -/
theorem closedUnder_untraced (hq : q.Sound) (h : r.Solved q weights state) (hgoal : weights[q.goal]?.getD 0 = 0)
    (hgiven : ∀ id n, q.graph.node? id = some n → n.rule ≠ .given) (hcap : r.costOf q.goal < costCap)
    (hcost : r.costOf q.goal ≠ 0) (hnone : ∀ id, Traced q weights r id → collects q weights r id = false) :
    RelaxedCosts.ClosedUnder q weights state (Untraced q weights r) := by
  -- a traced node that needs all its feeders and is not collected weighs nothing
  have hweight : ∀ id, Traced q weights r id → q.needsAll id = true → weights[id]?.getD 0 = 0 := by
    intro id ht hall
    by_cases hg : id = q.goal
    · exact hg ▸ hgoal
    · by_contra hpos
      have hsame := (ht.costOf_eq hq h hgoal hcap).2
      refine Bool.eq_false_iff.mp (hnone id ht) (collects_iff.mpr ⟨?_, hg, hall, Nat.pos_of_ne_zero hpos⟩)
      exact hsame ▸ hcost
  refine ⟨fun f hf hkind => ?_, fun id hor p hp c hpc => ?_, fun id hall hid hnil => ?_,
    fun id hall p hp c hpc hfed => ?_⟩
  · exact ⟨(h.facts f hf hkind).le, fun hzero => absurd hzero.symm hcost⟩
  · have hle := h.least id hor p hp
    refine ⟨hle.trans hpc.1, ?_⟩
    rintro rfl ht
    have hsame := (ht.costOf_eq hq h hgoal hcap).2
    have heq : r.costOf p = r.costOf id := Nat.le_antisymm (hsame ▸ hpc.1) hle
    exact hpc.2 rfl (ht.tail (mem_follow_any hor (hgiven id) (hsame ▸ hcost) hp heq))
  · have halone := h.alone id hall hid hnil
    refine ⟨halone.le, fun heq ht => hcost ?_⟩
    rw [← heq, hweight id ht hall]
  · by_cases hpriced : ∀ p' ∈ q.feeders id, r.costOf p' < costCap
    · obtain ⟨p', hp', -, hsum, -⟩ := h.supported id hall (List.ne_nil_of_mem hp) hpriced
      obtain ⟨c', hc', hpc'⟩ := hfed p' hp'
      refine ⟨hsum.trans_le (Nat.add_le_add_left (hpc'.1.trans hc') _), fun heq ht => ?_⟩
      have hsame := (ht.costOf_eq hq h hgoal hcap).2
      have hzero := hweight id ht hall
      rw [hzero, Nat.zero_add] at heq
      subst heq
      obtain ⟨s, hfollow, hs, hscost⟩ := mem_follow_all h (ht.costOf_eq hq h hgoal hcap).1 hall hzero
        (hsame ▸ hcost) (hsame ▸ hcap)
      obtain ⟨d, hd, hsd⟩ := hfed s hs
      exact hsd.2 (Nat.le_antisymm hd ((hscost.trans hsame).symm.trans_le hsd.1)) (ht.tail hfollow)
    · -- a feeder at the cap takes the node above any cost below it
      obtain ⟨p', hp'⟩ := not_forall.mp hpriced
      obtain ⟨hin, hnot⟩ := Classical.not_imp.mp hp'
      obtain ⟨c', hc', hpc'⟩ := hfed p' hin
      have hover : costCap ≤ c := (Nat.le_of_not_lt hnot).trans (hpc'.1.trans hc')
      refine ⟨(h.le_cap id).trans (hover.trans (Nat.le_add_left ..)), fun heq => ?_⟩
      omega

/-- **A goal that costs something and can be reached has a cut.** -/
theorem cut_ne_nil (hq : q.Sound) (hplain : q.Plain) (hfits : q.Fits weights)
    (hcap : (RelaxedCosts.compute q weights state).costOf q.goal < costCap)
    (hcost : (RelaxedCosts.compute q weights state).costOf q.goal ≠ 0) :
    cut q weights (.compute q weights state) ≠ [] := by
  have h := hfits.solved hq state
  intro hnil
  have hnone : ∀ id, Traced q weights (.compute q weights state) id →
      collects q weights (.compute q weights state) id = false := by
    intro id ht
    refine Bool.eq_false_iff.mpr fun hc => ?_
    have hin := mem_cut hq h hfits.goal hcap ht hc
    rw [hnil] at hin
    exact List.not_mem_nil hin
  have hclosed := closedUnder_untraced hq h hfits.goal hplain.rule hcap hcost hnone
  exact (RelaxedCosts.holds_of_lt_cap hq hfits.total hfits.goal hclosed hcap).2 rfl .refl

end LandmarkCut

end HierPlan
