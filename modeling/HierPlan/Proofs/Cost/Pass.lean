import HierPlan.Proofs.Cost.Relaxed

/-!
# Proofs/Cost/Pass — the turns of a pass over the queue

    queue ──pop──▸ entry ──live?──▸ its node is final ──▸ arcs, one by one ──push──▸ queue

`RelaxedCosts.Pass` speaks of a pass between any two of its steps: which entries have left the queue, which arcs out
of the last of them are still to be followed, and the costs so far.  **Every turn of `RelaxedCosts.drain` is one of
these** (`Pass.drain_eq`), it stays in the tables of its graph (`Pass.inRange`), and a pass ends with an empty queue,
whatever the weights (`exists_pass_compute`).

While the weights stay below the cap, entries leave the queue in order (`Pass.pairwise`), no node is told of a feeder
that it does not wait for (`Pass.waitingOf_pos`), and **the costs that are left solve the equations**
(`solved_compute`).
-/

namespace HierPlan

namespace RelaxedCosts

variable {q : RelaxedGoal} {weights : Array Nat} {state : IdSet} {r : RelaxedCosts} {log : List (Nat × Nat)}
  {pending : List Nat}

/-- What a pass has come to: the entries that have left the queue, last first, the arcs out of the last one that
are still to be followed, and the costs so far. -/
inductive Pass (q : RelaxedGoal) (weights : Array Nat) (state : IdSet) :
    List (Nat × Nat) → List Nat → RelaxedCosts → Prop where
  | start : Pass q weights state [] [] (start q weights state)
  /-- An entry that is out of date leaves the queue. -/
  | drop {log : List (Nat × Nat)} {r : RelaxedCosts} {e : Nat × Nat} {queue : Heap (Nat × Nat)}
      (before : Pass q weights state log [] r) (first : r.queue.pop? cheaper = some (e, queue))
      (stale : r.costOf e.2 < e.1 ∨ e.2 ∈ r.done) : Pass q weights state (e :: log) [] { r with queue }
  /-- The node of an entry becomes final. -/
  | take {log : List (Nat × Nat)} {r : RelaxedCosts} {e : Nat × Nat} {queue : Heap (Nat × Nat)}
      (before : Pass q weights state log [] r) (first : r.queue.pop? cheaper = some (e, queue))
      (live : ¬ r.costOf e.2 < e.1) (new : e.2 ∉ r.done) :
      Pass q weights state (e :: log) (q.targets e.2) { r with queue, done := r.done.insert e.2 }
  /-- An arc out of it is followed. -/
  | follow {log : List (Nat × Nat)} {r : RelaxedCosts} {e : Nat × Nat} {target : Nat} {rest : List Nat}
      (before : Pass q weights state (e :: log) (target :: rest) r) :
      Pass q weights state (e :: log) rest (relax q weights e.2 e.1 r target)

/-- The entry that left the queue last; before the first, the floor is at nothing. -/
abbrev lastOf (log : List (Nat × Nat)) : Nat × Nat := log.headD (0, 0)

/-! ## A pass and its turns -/

section Turns

variable {e : Nat × Nat} {queue : Heap (Nat × Nat)}

theorem drain_of_stale (first : r.queue.pop? cheaper = some (e, queue)) (stale : r.costOf e.2 < e.1 ∨ e.2 ∈ r.done)
    (fuel : Nat) : drain q weights (fuel + 1) r = drain q weights fuel { r with queue } := by
  rw [← decide_eq_true_iff (p := r.costOf e.2 < e.1)] at stale
  rw [drain, first]
  exact if_pos (Bool.or_eq_true_iff.mpr stale)

theorem drain_of_live (first : r.queue.pop? cheaper = some (e, queue)) (live : ¬ r.costOf e.2 < e.1)
    (new : e.2 ∉ r.done) (fuel : Nat) :
    drain q weights (fuel + 1) r = drain q weights fuel
      ((q.targets e.2).foldl (relax q weights e.2 e.1) { r with queue, done := r.done.insert e.2 }) := by
  rw [← decide_eq_true_iff (p := r.costOf e.2 < e.1)] at live
  rw [drain, first]
  exact if_neg fun h => (Bool.or_eq_true_iff.mp h).elim live new

/-- **These are the turns of a pass.** -/
theorem Pass.drain_eq (h : Pass q weights state log pending r) (fuel : Nat) :
    drain q weights (log.length + fuel) (RelaxedCosts.start q weights state) =
      drain q weights fuel (pending.foldl (relax q weights (lastOf log).2 (lastOf log).1) r) := by
  induction h generalizing fuel with
  | start => rw [List.length_nil, Nat.zero_add, List.foldl_nil]
  | drop before first stale ih =>
    rw [List.length_cons, Nat.add_right_comm, Nat.add_assoc, ih, List.foldl_nil, drain_of_stale first stale]
    rfl
  | take before first live new ih =>
    rw [List.length_cons, Nat.add_right_comm, Nat.add_assoc, ih, List.foldl_nil, drain_of_live first live new]
    rfl
  | follow before ih => exact ih fuel

/-- Following the arcs that are left comes to the end of the turn. -/
theorem Pass.followAll {ts : List Nat} (h : Pass q weights state (e :: log) ts r) :
    Pass q weights state (e :: log) [] (ts.foldl (relax q weights e.2 e.1) r) := by
  induction ts generalizing r with
  | nil => exact h
  | cons t ts ih => exact ih h.follow

/-- **A pass goes on until its queue is empty or no turn is left.** -/
theorem Pass.exists_drain (h : Pass q weights state log [] r) (fuel : Nat) :
    ∃ log', Pass q weights state log' [] (RelaxedCosts.drain q weights fuel r) ∧
      ((RelaxedCosts.drain q weights fuel r).queue.toList = [] ∨ log'.length = log.length + fuel) := by
  induction fuel generalizing log r with
  | zero => exact ⟨log, h, .inr rfl⟩
  | succ fuel ih =>
    cases hpop : r.queue.pop? cheaper with
    | none =>
      refine ⟨log, ?_, .inl ?_⟩ <;> rw [RelaxedCosts.drain, hpop]
      · exact h
      · exact Heap.pop?_eq_none.mp hpop
    | some next =>
      obtain ⟨e, queue⟩ := next
      rw [Nat.add_comm fuel 1, ← Nat.add_assoc, Nat.add_comm 1 fuel]
      by_cases hstale : r.costOf e.2 < e.1 ∨ e.2 ∈ r.done
      · rw [drain_of_stale hpop hstale]
        exact ih (h.drop hpop hstale)
      · obtain ⟨hlive, hnew⟩ := not_or.mp hstale
        rw [drain_of_live hpop hlive hnew]
        exact ih (h.take hpop hlive hnew).followAll

end Turns

/-! ## Tables -/

/-- The tables of a pass are as long as its graph, and all nodes that they and the queue name are in it. -/
structure InRange (r : RelaxedCosts) (n : Nat) : Prop where
  cost : r.cost.size = n
  supporter : r.supporter.size = n
  waiting : r.waiting.size = n
  done : r.done.width = n
  queue : ∀ e ∈ r.queue.toList, e.2 < n
  supporters : ∀ id p, r.supporterOf id = some p → p < n

section Steps

variable {n id c target : Nat}

theorem InRange.price (h : r.InRange n) (hid : id < n) : (r.price id c).InRange n := by
  refine ⟨(Array.size_setIfInBounds ..).trans h.cost, h.supporter, h.waiting, h.done, fun e he => ?_, h.supporters⟩
  rcases mem_queue_price.mp he with rfl | he
  · exact hid
  · exact h.queue e he

/-- **Following an arc stays in range**, if both its ends are. -/
theorem InRange.followed {r' : RelaxedCosts} (h : r.InRange n) (hid : id < n) (htarget : target < n)
    (hr : Followed q weights id c r target r') : r'.InRange n := by
  cases hr with
  | final | dearer => exact h
  | awaited =>
    exact ⟨h.cost, h.supporter, (Array.size_setIfInBounds ..).trans h.waiting, h.done, h.queue, h.supporters⟩
  | settled =>
    refine InRange.price ⟨h.cost, (Array.size_setIfInBounds ..).trans h.supporter,
      (Array.size_setIfInBounds ..).trans h.waiting, h.done, h.queue, fun k p hp => ?_⟩ htarget
    rw [supporterOf, supporterOf_set (h.supporter ▸ htarget)] at hp
    split at hp
    · exact Option.some.inj hp ▸ hid
    · exact h.supporters k p hp
  | lowered => exact h.price htarget

end Steps

theorem InRange.priceAll {n : Nat} {entries : List (Nat × Nat)} (h : r.InRange n)
    (hentries : ∀ e ∈ entries, e.2 < n) : (RelaxedCosts.priceAll entries r).InRange n := by
  induction entries generalizing r with
  | nil => exact h
  | cons e entries ih =>
    obtain ⟨he, hentries⟩ := List.forall_mem_cons.mp hentries
    rw [priceAll_cons]
    exact ih (h.price he) hentries

/-- Before anything is priced, all tables are as long as the graph. -/
theorem inRange_blank (q : RelaxedGoal) : (blank q).InRange q.graph.size := by
  refine ⟨Array.size_replicate, Array.size_replicate, by simp [blank], rfl, fun e he => ?_, fun id p hp => ?_⟩
  · exact absurd he List.not_mem_nil
  · rw [supporterOf, blank, Array.getElem?_replicate] at hp
    split at hp <;> cases hp

/-- At its start a pass is in range. -/
theorem inRange_start (hgoal : q.goal < q.graph.size) (weights : Array Nat) (state : IdSet) :
    (start q weights state).InRange q.graph.size := by
  rw [start_eq]
  refine (inRange_blank q).priceAll fun e he => ?_
  rcases mem_starters.mp he with ⟨hin, -⟩ | ⟨-, rfl⟩ | ⟨-, hkind, -⟩
  · exact List.mem_range.mp (List.mem_filter.mp hin).1
  · exact hgoal
  · exact lt_size_of_isKind hkind

/-! ## A pass ends -/

section End

variable (hq : q.Sound)

include hq

/-- **A pass stays in range at every step.** -/
theorem Pass.inRange (h : Pass q weights state log pending r) :
    r.InRange q.graph.size ∧ ∀ t ∈ pending, (lastOf log).2 ∈ q.feeders t ∧ (lastOf log).2 ∈ r.done := by
  induction h with
  | start => exact ⟨inRange_start hq.goal weights state, fun t ht => absurd ht List.not_mem_nil⟩
  | drop before first stale ih =>
    have hlist := Heap.toList_of_pop? first
    refine ⟨⟨ih.1.cost, ih.1.supporter, ih.1.waiting, ih.1.done, fun e he => ?_, ih.1.supporters⟩,
      fun t ht => absurd ht List.not_mem_nil⟩
    exact ih.1.queue e (hlist.mem_iff.mpr (List.mem_cons_of_mem _ he))
  | take before first live new ih =>
    have hlist := Heap.toList_of_pop? first
    have hid := ih.1.queue _ (hlist.mem_iff.mpr List.mem_cons_self)
    refine ⟨⟨ih.1.cost, ih.1.supporter, ih.1.waiting, (IdSet.width_insert ..).trans ih.1.done, fun e he => ?_,
      ih.1.supporters⟩, fun t ht => ⟨(RelaxedGoal.mem_targets_iff hq).mp ht, ?_⟩⟩
    · exact ih.1.queue e (hlist.mem_iff.mpr (List.mem_cons_of_mem _ he))
    · exact IdSet.mem_insert.mpr (.inr ⟨rfl, ih.1.done ▸ hid⟩)
  | @follow log r e target rest before ih =>
    obtain ⟨hrange, hpending⟩ := ih
    obtain ⟨⟨hfeeds, hdone⟩, hrest⟩ := List.forall_mem_cons.mp hpending
    have hr : Followed q weights e.2 e.1 r target (relax q weights e.2 e.1 r target) := relax_cases
    refine ⟨hrange.followed (hq.feeders _ _ hfeeds) (lt_size_of_feeders hq hfeeds) hr, fun t ht => ?_⟩
    rw [hr.done_eq]
    exact hrest t ht

/-- **Every step is paid for**: the entries that have left the queue and what may still enter or leave it stay
within the bound. -/
theorem Pass.effort_le (h : Pass q weights state log pending r) :
    log.length + effort q r + pending.length ≤ q.queueBound := by
  induction h with
  | start => simpa using effort_start hq
  | drop before first stale ih =>
    have hsize := size_of_pop? first
    unfold effort at ih ⊢
    simp only [List.length_cons, List.length_nil] at ih ⊢
    omega
  | @take log r e queue before first live new ih =>
    have hsize := size_of_pop? first
    have hrange := (before.inRange hq).1
    have hid := hrange.queue e ((Heap.toList_of_pop? first).mem_iff.mpr List.mem_cons_self)
    have hless := sum_outside_insert (fun k => (q.targets k).length) hid hrange.done new
    unfold effort at ih ⊢
    simp only [List.length_cons, List.length_nil] at ih ⊢
    omega
  | @follow log r e target rest before ih =>
    have hr : Followed q weights e.2 e.1 r target (relax q weights e.2 e.1 r target) := relax_cases
    have hone := hr.size_queue_le
    unfold effort at ih ⊢
    rw [hr.done_eq]
    simp only [List.length_cons] at ih ⊢
    omega

/-- **A pass ends with an empty queue**, whatever the weights. -/
theorem exists_pass_compute (weights : Array Nat) (state : IdSet) :
    ∃ log, Pass q weights state log [] (compute q weights state) ∧ (compute q weights state).queue.toList = [] := by
  have hstart : Pass q weights state [] [] (start q weights state) := .start
  obtain ⟨log, hpass, hempty | hlength⟩ := hstart.exists_drain q.queueBound
  · exact ⟨log, hpass, hempty⟩
  · refine ⟨log, hpass, List.eq_nil_of_length_eq_zero ?_⟩
    have heffort := hpass.effort_le hq
    unfold effort at heffort
    rw [List.length_nil, Nat.zero_add] at hlength
    change (drain q weights q.queueBound (start q weights state)).queue.toList.length = 0
    rw [Heap.length_toList]
    omega

/-- **A pass stays in range from its start**, whatever the weights and the state, however many turns it takes. -/
theorem inRange_drain (weights : Array Nat) (state : IdSet) (fuel : Nat) :
    (drain q weights fuel (start q weights state)).InRange q.graph.size := by
  have hstart : Pass q weights state [] [] (start q weights state) := .start
  obtain ⟨log, hpass, -⟩ := hstart.exists_drain fuel
  exact (hpass.inRange hq).1

end End

/-! ## Weights below the cap -/

section Priced

variable (hq : q.Sound) (htotal : q.totalWeight weights < costCap) (hgoal : weights[q.goal]?.getD 0 = 0)

include hq htotal hgoal

/-- **A pass keeps its costs priced at every step**, with the last entry for a floor. -/
theorem Pass.priced (h : Pass q weights state log pending r) :
    Priced q weights state (lastOf log).1 (lastOf log).2 pending r ∧
      (pending ≠ [] → r.costOf (lastOf log).2 = (lastOf log).1) := by
  induction h with
  | start => exact ⟨priced_start hq htotal hgoal, fun h => absurd rfl h⟩
  | drop before first stale ih => exact ⟨ih.1.drop first stale, fun h => absurd rfl h⟩
  | take before first live new ih =>
    obtain ⟨htaken, hcost⟩ := ih.1.take hq htotal first live new
    exact ⟨htaken, fun _ => hcost⟩
  | @follow log r e target rest before ih =>
    obtain ⟨hrange, hpending⟩ := before.inRange hq
    obtain ⟨⟨hfeeds, hdone⟩, -⟩ := List.forall_mem_cons.mp hpending
    have hr : Followed q weights e.2 e.1 r target (relax q weights e.2 e.1 r target) := relax_cases
    have hcost := ih.2 (List.cons_ne_nil target rest)
    refine ⟨ih.1.followed hq htotal hfeeds hdone hcost hr, fun _ => ?_⟩
    exact (hr.costOf_eq hrange.cost (lt_size_of_feeders hq hfeeds) hdone).trans hcost

/-- **Entries leave the queue in order of their costs.** -/
theorem Pass.pairwise (h : Pass q weights state log pending r) :
    log.Pairwise fun later earlier => earlier.1 ≤ later.1 := by
  have hnext : ∀ {log : List (Nat × Nat)} {r : RelaxedCosts} {e : Nat × Nat} {queue : Heap (Nat × Nat)},
      Pass q weights state log [] r → r.queue.pop? cheaper = some (e, queue) →
      (log.Pairwise fun later earlier => earlier.1 ≤ later.1) →
      (e :: log).Pairwise fun later earlier => earlier.1 ≤ later.1 := by
    intro log r e queue before first hlog
    obtain ⟨-, -, hfloor, -⟩ := (before.priced hq htotal hgoal).1.queued e
      ((Heap.toList_of_pop? first).mem_iff.mpr List.mem_cons_self)
    refine hlog.cons fun e' he' => ?_
    cases log with
    | nil => exact absurd he' List.not_mem_nil
    | cons last log =>
      obtain rfl | he' := List.mem_cons.mp he'
      · exact hfloor
      · exact ((List.pairwise_cons.mp hlog).1 e' he').trans hfloor
  induction h with
  | start => exact .nil
  | drop before first stale ih => exact hnext before first ih
  | take before first live new ih => exact hnext before first ih
  | follow before ih => exact ih

/-- **A node that is told of a feeder still waits for one**, if it needs all of them. -/
theorem Pass.waitingOf_pos {target : Nat} {rest : List Nat} (h : Pass q weights state log (target :: rest) r)
    (hall : q.needsAll target = true) : 0 < r.waitingOf target := by
  obtain ⟨⟨hfeeds, -⟩, -⟩ := List.forall_mem_cons.mp (h.inRange hq).2
  rw [(h.priced hq htotal hgoal).1.counts target hall (lt_size_of_feeders hq hfeeds), List.count_cons_self]
  omega

/-- **The computed costs solve the equations.** -/
theorem solved_compute : Solved q weights state (compute q weights state) := by
  obtain ⟨log, hpass, hempty⟩ := exists_pass_compute hq weights state
  exact (hpass.priced hq htotal hgoal).1.solved hq hempty

end Priced

end RelaxedCosts

end HierPlan
