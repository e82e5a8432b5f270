import HierPlan.Proofs.Graph.Range
import HierPlan.Proofs.Landmark.Rounds

/-!
# Proofs/Cost/Range — a pass, a walk back and a round stay in their graph

    queue ──pop──▸ id ──target──▸ t ──push──▸ queue          id, t < size of the graph
    stack ──pop──▸ id ──follow──▸ p ──push──▸ stack          id, p < size of the graph

Costs, supporters and counters are arrays as long as the graph, before a pass and after every node that is taken
off its queue (`RelaxedCosts.inRange_drain`).  What waits in the queue or on the stack of a walk, and what the walk
collects, are nodes of the graph (`LandmarkCut.Walks.inRange`); so are the operators that a round discounts.
**No bound on costs is needed for any of it**: sums that stop at the cap are as good as any.
-/

namespace HierPlan

/-! ## Questions -/

/-- All that a question mentions are slots of its graph. -/
structure RelaxedGoal.InRange (q : RelaxedGoal) : Prop where
  goal : q.goal < q.graph.size
  wanted : ∀ p ∈ q.wanted, p < q.graph.size
  predecessors : ∀ id n, q.graph.node? id = some n → ∀ p ∈ n.predecessors, p < q.graph.size
  targets : ∀ id, ∀ t ∈ q.targets id, t < q.graph.size

theorem RelaxedGoal.inRange_of_joined {q : RelaxedGoal} (hq : q.graph.Joined) (hgoal : q.goal < q.graph.size)
    (hwanted : ∀ p ∈ q.wanted, p < q.graph.size) : q.InRange := by
  refine ⟨hgoal, hwanted, fun id n hn p hp => hq.lt_size hn hp, fun id t ht => ?_⟩
  rcases List.mem_append.mp ht with ht | ht
  · cases hn : q.graph.node? id with
    | none =>
      rw [hn] at ht
      exact absurd ht List.not_mem_nil
    | some n =>
      rw [hn] at ht
      obtain ⟨_, hheld⟩ := hq.successors id n hn t ht
      exact AndOrGraph.lt_size_of_node? hheld
  · exact List.eq_of_mem_replicate ht ▸ hgoal

namespace LandmarkCut

variable {q : RelaxedGoal} {weights : Array Nat} {state : IdSet} {r : RelaxedCosts} {stack cut : List Nat}
  {seen : IdSet} {turns fuel : Nat}

/-! ## Walks back -/

/-- What is on the stack, seen and collected after so many turns of the walk back from the goal. -/
inductive Walks (q : RelaxedGoal) (weights : Array Nat) (r : RelaxedCosts) :
    Nat → List Nat → IdSet → List Nat → Prop where
  | start : Walks q weights r 0 [q.goal] (.empty q.graph.size) []
  /-- A node seen before is passed over. -/
  | again {turns id : Nat} {stack cut : List Nat} {seen : IdSet}
      (before : Walks q weights r turns (id :: stack) seen cut) (old : id ∈ seen) :
      Walks q weights r (turns + 1) stack (seen.insert id) cut
  /-- A new node leads on, and is collected if it is to be. -/
  | visit {turns id : Nat} {stack cut : List Nat} {seen : IdSet}
      (before : Walks q weights r turns (id :: stack) seen cut) (new : id ∉ seen) :
      Walks q weights r (turns + 1) ((follow q weights r id).reverse ++ stack) (seen.insert id)
        (if collects q weights r id = true then id :: cut else cut)

/-- **These are the turns of the walk back.** -/
theorem Walks.walkBack_eq (h : Walks q weights r turns stack seen cut) (fuel : Nat) :
    walkBack q weights r (turns + fuel) [q.goal] (.empty q.graph.size) [] =
      walkBack q weights r fuel stack seen cut := by
  induction h generalizing fuel with
  | start => rw [Nat.zero_add]
  | again before old ih => rw [Nat.add_right_comm, Nat.add_assoc, ih, walkBack_cons, if_pos old]
  | visit before new ih => rw [Nat.add_right_comm, Nat.add_assoc, ih, walkBack_cons, if_neg new]

/-- A walk back that goes on has come from one of its turns to its end. -/
theorem Walks.exists_walkBack (h : Walks q weights r turns stack seen cut) (fuel : Nat) :
    ∃ turns' stack' seen' cut', Walks q weights r turns' stack' seen' cut' ∧
      walkBack q weights r fuel stack seen cut = cut'.reverse := by
  induction fuel generalizing turns stack seen cut with
  | zero => exact ⟨turns, stack, seen, cut, h, by rw [walkBack]⟩
  | succ fuel ih =>
    cases stack with
    | nil => exact ⟨turns, [], seen, cut, h, by rw [walkBack]; exact Nat.succ_ne_zero fuel⟩
    | cons id stack =>
      rw [walkBack_cons]
      by_cases hseen : id ∈ seen
      · rw [if_pos hseen]
        exact ih (h.again hseen)
      · rw [if_neg hseen]
        exact ih (h.visit hseen)

/-- What a node leads on to is in the graph. -/
theorem lt_size_of_follow (hq : q.InRange) (hr : r.InRange q.graph.size) {id p : Nat}
    (hp : p ∈ follow q weights r id) : p < q.graph.size := by
  unfold follow at hp
  split at hp
  · exact absurd hp List.not_mem_nil
  split at hp
  · rcases Option.or_eq_some_iff.mp (Option.mem_toList.mp hp) with hp | ⟨-, hp⟩
    · exact hr.supporters _ p hp
    · exact hq.wanted p (List.mem_of_head? hp)
  split at hp
  · exact absurd hp List.not_mem_nil
  rename_i n hn
  split at hp
  · exact absurd hp List.not_mem_nil
  · exact hq.predecessors id n hn p (List.mem_filter.mp hp).1
  · split at hp
    · exact absurd hp List.not_mem_nil
    · exact hr.supporters id p (Option.mem_toList.mp hp)

/-- Stack, nodes seen and cut of a walk are in the graph. -/
structure WalkInRange (n : Nat) (stack : List Nat) (seen : IdSet) (cut : List Nat) : Prop where
  stack : ∀ id ∈ stack, id < n
  seen : seen.width = n
  cut : ∀ id ∈ cut, id < n

/-- **A walk back stays in range**, after any number of turns. -/
theorem Walks.inRange (hq : q.InRange) (hr : r.InRange q.graph.size)
    (h : Walks q weights r turns stack seen cut) : WalkInRange q.graph.size stack seen cut := by
  induction h with
  | start =>
    exact ⟨fun id hid => List.mem_singleton.mp hid ▸ hq.goal, rfl, fun id hid => absurd hid List.not_mem_nil⟩
  | again before old ih =>
    exact ⟨fun k hk => ih.stack k (List.mem_cons_of_mem _ hk), (IdSet.width_insert ..).trans ih.seen, ih.cut⟩
  | @visit _ id _ _ _ before new ih =>
    refine ⟨fun k hk => ?_, (IdSet.width_insert ..).trans ih.seen, fun k hk => ?_⟩
    · rcases List.mem_append.mp hk with hk | hk
      · exact lt_size_of_follow hq hr (List.mem_reverse.mp hk)
      · exact ih.stack k (List.mem_cons_of_mem _ hk)
    · split at hk
      · rcases List.mem_cons.mp hk with rfl | hk
        · exact ih.stack _ List.mem_cons_self
        · exact ih.cut k hk
      · exact ih.cut k hk

/-- A cut is a set of nodes of the graph. -/
theorem lt_size_of_mem_cut (hq : q.InRange) (hr : r.InRange q.graph.size) {id : Nat}
    (hid : id ∈ LandmarkCut.cut q weights r) : id < q.graph.size := by
  obtain ⟨_, _, _, _, hwalks, hend⟩ := Walks.exists_walkBack (.start : Walks q weights r 0 _ _ _) q.queueBound
  rw [LandmarkCut.cut, hend] at hid
  exact (hwalks.inRange hq hr).cut id (List.mem_reverse.mp hid)

/-! ## Rounds -/

/-- Discounts change no size. -/
theorem size_discount (w : Array Nat) (ids : List Nat) (amount : Nat) : (discount w ids amount).size = w.size := by
  induction ids generalizing w with
  | nil => rfl
  | cons id ids ih => exact (ih _).trans Array.size_modify

/-- A round has a weight for each node of the graph, before and after, and discounts nodes of the graph. -/
structure Round.InRange (x : Round) (n : Nat) : Prop where
  weights : x.weights.size = n
  next : x.next.size = n
  ops : ∀ id ∈ x.ops, id < n

/-- **Rounds stay in range**, however many there are. -/
theorem Round.inRange (hsound : q.Sound) (hq : q.InRange) {x : Round} (hweights : weights.size = q.graph.size)
    (hx : x ∈ trace q state fuel weights) : x.InRange q.graph.size := by
  induction fuel generalizing weights with
  | zero => exact absurd hx List.not_mem_nil
  | succ fuel ih =>
    rw [trace] at hx
    split at hx
    · exact absurd hx List.not_mem_nil
    rename_i y hy
    obtain ⟨rfl, hround⟩ := round?_eq_some.mp hy
    have hnext : y.next.size = q.graph.size := (size_discount ..).trans hweights
    rcases List.mem_cons.mp hx with rfl | hx
    · refine ⟨hweights, hnext, fun id hid => ?_⟩
      have hcosts : x.costs.InRange q.graph.size :=
        hround.costs ▸ RelaxedCosts.inRange_drain hsound x.weights state q.queueBound
      exact lt_size_of_mem_cut hq hcosts (hround.ops ▸ hid)
    · exact ih hnext hx

/-! ## Cuts for a situation -/

variable {m : Model} {s : Situation}

/-- What is looked up when the cuts for a situation are found: in the question itself, in every pass after each
node taken, in every walk back after each turn, and in every round. -/
structure InRange (m : Model) (s : Situation) : Prop where
  question : (question m s.network).InRange
  weights : (build m).weights.size = (build m).graph.size
  pass : ∀ weights fuel, (RelaxedCosts.drain (LandmarkCut.question m s.network) weights fuel
    (.start (LandmarkCut.question m s.network) weights s.state)).InRange (build m).graph.size
  walk : ∀ (weights passed : Array Nat) (turns : Nat) (stack cut : List Nat) (seen : IdSet),
    Walks (LandmarkCut.question m s.network) weights
      (.compute (LandmarkCut.question m s.network) passed s.state) turns stack seen cut →
    WalkInRange (build m).graph.size stack seen cut
  rounds : ∀ fuel, ∀ x ∈ trace (LandmarkCut.question m s.network) s.state fuel (build m).weights,
    x.InRange (build m).graph.size

/-- The question about a situation of the problem is in range. -/
theorem inRange_question (hw : m.WellFormed) (hs : s.Known m) : (question m s.network).InRange := by
  have hsound := sound_query hw hs.tasks
  refine RelaxedGoal.inRange_of_joined (View.inRange hw .composition).joined hsound.goal fun p hp => ?_
  refine hsound.feeders (View.goalId m) p ?_
  rwa [feeders_goal]

/-- **The cuts for a situation of the problem are found in range.** -/
theorem inRange (hw : m.WellFormed) (hs : s.Known m) : InRange m s := by
  have hq := inRange_question hw hs
  have hsound := sound_query hw hs.tasks
  have hweights : (build m).weights.size = (build m).graph.size := by simp [weights]
  exact ⟨hq, hweights, fun w fuel => RelaxedCosts.inRange_drain hsound w s.state fuel,
    fun w passed turns stack cut seen h => h.inRange hq (RelaxedCosts.inRange_drain hsound passed s.state _),
    fun fuel x hx => Round.inRange hsound hq hweights hx⟩

end LandmarkCut

end HierPlan
