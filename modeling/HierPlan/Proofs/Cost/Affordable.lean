import HierPlan.Proofs.Cost.Pass

/-!
# Proofs/Cost/Affordable — what a pass asks of a node is no more than its feeders afford

    any:  cost (node) ≤ the cost of each feeder
    all:  cost (node) ≤ weight + c, if every feeder costs at most c

Weights that reach the cap together make sums stop there, and then a supporter may cost less than its share.  Still,
**no cost is too high**: whatever the weights, nodes become final in order as long as they stay below the cap, so the
bounds above hold there (`RelaxedCosts.affords_compute`).  `RelaxedCosts.Within` says what is left of an order at the
cap, and counters are right in any case (`RelaxedCosts.Pass.counted`).
-/

namespace HierPlan

namespace RelaxedCosts

variable {q : RelaxedGoal} {weights : Array Nat} {state : IdSet} {r r' : RelaxedCosts} {log : List (Nat × Nat)}
  {pending rest : List Nat} {c current target : Nat}

/-! ## Counters -/

/-- A node that needs all its feeders waits for those that are not final and for arcs not yet followed, and for
nothing once it is in the queue. -/
structure Counted (q : RelaxedGoal) (pending : List Nat) (r : RelaxedCosts) : Prop where
  counts : ∀ id, q.needsAll id = true → id < q.graph.size →
    r.waitingOf id = (q.feeders id).countP (fun p => decide (p ∉ r.done)) + pending.count id
  queued : ∀ e ∈ r.queue.toList, q.needsAll e.2 = true → r.waitingOf e.2 = 0
  final : ∀ id ∈ r.done, q.needsAll id = true → r.waitingOf id = 0

/-- An arc to a node that needs all its feeders takes one off what it waits for, any other takes nothing. -/
theorem Followed.waitingOf_eq (hr : Followed q weights current c r target r') (hsize : target < r.waiting.size)
    (hfinal : target ∈ r.done → q.needsAll target = false) (k : Nat) :
    r'.waitingOf k = if k = target ∧ q.needsAll target = true then r.waitingOf k - 1 else r.waitingOf k := by
  cases hr with
  | final hin => rw [if_neg fun h => Bool.eq_false_iff.mp (hfinal hin) h.2]
  | lowered _ hany | dearer hany => exact (if_neg fun h => Bool.eq_false_iff.mp hany h.2).symm
  | awaited hall hleft =>
    refine (waitingOf_set hsize).trans ?_
    by_cases hk : k = target
    · rw [if_pos hk, if_pos ⟨hk, hall⟩, hk]
    · rw [if_neg hk, if_neg fun h => hk h.1]
      rfl
  | settled _ hall hleft =>
    refine (waitingOf_set hsize).trans ?_
    by_cases hk : k = target
    · rw [if_pos hk, if_pos ⟨hk, hall⟩, hk, hleft]
    · rw [if_neg hk, if_neg fun h => hk h.1]
      rfl

/-- Following an arc queues its target or nothing, and only what waits for nothing more. -/
theorem Followed.mem_queue (hr : Followed q weights current c r target r') {e : Nat × Nat}
    (he : e ∈ r'.queue.toList) :
    e ∈ r.queue.toList ∨ e.2 = target ∧ (q.needsAll target = true → r.waitingOf target - 1 = 0) := by
  cases hr with
  | final | awaited | dearer => exact .inl he
  | settled _ _ hleft =>
    exact (mem_queue_price.mp he).symm.imp_right fun heq => ⟨congrArg Prod.snd heq, fun _ => hleft⟩
  | lowered _ hany =>
    refine (mem_queue_price.mp he).symm.imp_right fun heq => ⟨congrArg Prod.snd heq, fun hall => ?_⟩
    rw [hany] at hall
    cases hall

/-- A final node is never told of a feeder that it needs among others. -/
theorem Counted.needsAll_eq_false (h : Counted q (target :: rest) r) (hlt : target < q.graph.size)
    (hin : target ∈ r.done) : q.needsAll target = false := Bool.eq_false_iff.mpr fun hall => by
  have hcounts := h.counts target hall hlt
  rw [h.final target hin hall, List.count_cons_self] at hcounts
  omega

/-- **Following an arc keeps the counters right.** -/
theorem Counted.followed (h : Counted q (target :: rest) r) (hlt : target < q.graph.size)
    (hsize : r.waiting.size = q.graph.size) (hr : Followed q weights current c r target r') :
    Counted q rest r' := by
  have hwaiting := hr.waitingOf_eq (hsize ▸ hlt) (h.needsAll_eq_false hlt)
  have hzero : ∀ k, r.waitingOf k = 0 → r'.waitingOf k = 0 := fun k hk => by
    rw [hwaiting]
    split <;> omega
  refine ⟨fun k hall hk => ?_, fun e he hall => ?_, fun k hk hall => hzero k (h.final k (hr.done_eq ▸ hk) hall)⟩
  · rw [hwaiting, hr.done_eq, h.counts k hall hk]
    by_cases hkt : k = target
    · rw [if_pos ⟨hkt, hkt ▸ hall⟩, hkt, List.count_cons_self]
      omega
    · rw [if_neg fun h => hkt h.1, List.count_cons_of_ne (Ne.symm hkt)]
  · obtain hold | ⟨htarget, hleft⟩ := hr.mem_queue he
    · exact hzero _ (h.queued e hold hall)
    · rw [htarget] at hall
      rw [htarget, hwaiting, if_pos ⟨rfl, hall⟩]
      exact hleft hall

/-- **The counters of a pass are right at every step**, whatever the weights. -/
theorem Pass.counted (hq : q.Sound) (h : Pass q weights state log pending r) : Counted q pending r := by
  induction h with
  | start =>
    have hb : Begun q weights state (RelaxedCosts.start q weights state) := begun_start hq
    refine ⟨fun id hall hid => ?_, fun e he hall => ?_, fun id hid => absurd hid (hb.not_done id)⟩
    · rw [hb.waiting id hid, RelaxedGoal.waits_eq hall, List.count_nil, Nat.add_zero,
        List.countP_eq_length.mpr fun p _ => decide_eq_true (hb.not_done p)]
    · have hin := hb.queue.mem_iff.mp he
      rw [hb.waiting _ (lt_size_of_mem_starters hq hin)]
      exact waits_of_mem_starters hq hin hall
  | drop before first stale ih =>
    have hlist := Heap.toList_of_pop? first
    exact ⟨ih.counts, fun e he => ih.queued e (hlist.mem_iff.mpr (List.mem_cons_of_mem _ he)), ih.final⟩
  | @take log r e queue before first live new ih =>
    have hlist := Heap.toList_of_pop? first
    have hrange := (before.inRange hq).1
    have hid := hrange.queue e (hlist.mem_iff.mpr List.mem_cons_self)
    refine ⟨fun k hall hk => ?_, fun e he => ih.queued e (hlist.mem_iff.mpr (List.mem_cons_of_mem _ he)),
      fun k hk hall => ?_⟩
    · rw [hq.mirror]
      exact (ih.counts k hall hk).trans (countP_insert (hrange.done.symm ▸ hid) new _)
    · obtain hk | ⟨rfl, -⟩ := IdSet.mem_insert.mp hk
      · exact ih.final k hk hall
      · exact ih.queued e (hlist.mem_iff.mpr List.mem_cons_self) hall
  | follow before ih =>
    obtain ⟨hrange, hpending⟩ := before.inRange hq
    obtain ⟨⟨hfeeds, -⟩, -⟩ := List.forall_mem_cons.mp hpending
    exact ih.followed (lt_size_of_feeders hq hfeeds) hrange.waiting relax_cases

/-! ## Costs below the cap -/

/-- One cost is no more than another, if the other is below the cap. -/
def Within (a b : Nat) : Prop := b < costCap → a ≤ b

theorem Within.of_le {a b : Nat} (h : a ≤ b) : Within a b := fun _ => h

theorem Within.trans {a b c : Nat} (h : Within a b) (k : Within b c) : Within a c := fun hc =>
  (h ((k hc).trans_lt hc)).trans (k hc)

theorem Within.le_trans {a b c : Nat} (h : a ≤ b) (k : Within b c) : Within a c := (Within.of_le h).trans k

/-- Below the cap, a sum that stops there is no less than its second part. -/
theorem within_cappedAdd (w c : Nat) : Within c (cappedAdd w c) := by
  unfold Within cappedAdd
  omega

/-- What a pass keeps true whatever the weights, while the arcs from `current` to `pending` are still to be followed
and `c` left the queue last. -/
structure Steady (q : RelaxedGoal) (weights : Array Nat) (state : IdSet) (c current : Nat) (pending : List Nat)
    (r : RelaxedCosts) : Prop where
  ordered : r.queue.Ordered cheaper
  queued : ∀ e ∈ r.queue.toList, r.costOf e.2 ≤ e.1 ∧ Within c e.1
  waits : ∀ id, r.costOf id < costCap → id ∈ r.done ∨ (r.costOf id, id) ∈ r.queue.toList
  final : ∀ id ∈ r.done, Within (r.costOf id) c
  unpriced : ∀ id, q.needsAll id = true → r.waitingOf id ≠ 0 → r.costOf id = costCap
  facts : ∀ f ∈ state, q.graph.isKind f .fact = true → r.costOf f = 0
  /-- A node that needs any feeder costs no more than one that is final. -/
  least : ∀ id, q.needsAll id = false → ∀ p ∈ q.feeders id, p ∈ r.done →
    (p = current ∧ id ∈ pending) ∨ Within (r.costOf id) (r.costOf p)
  /-- A node that needs all its feeders and waits for none costs no more than one of them and its weight. -/
  dearest : ∀ id, q.needsAll id = true → id < q.graph.size → r.waitingOf id = 0 →
    (q.feeders id = [] ∧ r.costOf id ≤ weights[id]?.getD 0) ∨
      ∃ p ∈ q.feeders id, p ∈ r.done ∧ r.costOf id ≤ weights[id]?.getD 0 + r.costOf p

namespace Steady

variable (h : Steady q weights state c current (target :: rest) r)

include h

/-- An arc to a node that needs any feeder and costs no more already. -/
theorem keep (hany : q.needsAll target = false) (hle : Within (r.costOf target) (r.costOf current)) :
    Steady q weights state c current rest r := by
  refine { h with least := fun id hor p hp hdone => ?_ }
  obtain ⟨rfl, hin⟩ | hless := h.least id hor p hp hdone
  · obtain rfl | hin := List.mem_cons.mp hin
    · exact .inr hle
    · exact .inl ⟨rfl, hin⟩
  · exact .inr hless

/-- An arc to a node that still waits for more. -/
theorem await (hsize : target < r.waiting.size) (hall : q.needsAll target = true)
    (hleft : r.waitingOf target - 1 ≠ 0) :
    Steady q weights state c current rest
      { r with waiting := r.waiting.setIfInBounds target (r.waitingOf target - 1) } := by
  have hzero := waitingOf_await_eq_zero hsize hleft
  refine { h with
    unpriced := fun k hk hw => h.unpriced k hk fun hz => hw ((hzero k).mpr hz)
    dearest := fun k hk hn hw => h.dearest k hk hn ((hzero k).mp hw)
    least := fun k hor p hp hpd => (h.least k hor p hp hpd).imp_left fun hin => ⟨hin.1, ?_⟩ }
  refine (List.mem_cons.mp hin.2).resolve_left fun hkt => ?_
  rw [hkt, hall] at hor
  cases hor

/-- An arc to a node that becomes cheaper. -/
theorem reprice {d : Nat} (hr : Reprices target d r r') (hordered : r'.queue.Ordered cheaper) (hfloor : Within c d)
    (hwaiting : ∀ k, k ≠ target → r'.waitingOf k = r.waitingOf k)
    (hany : q.needsAll target = false → d ≤ r.costOf current)
    (hall : q.needsAll target = true → r'.waitingOf target = 0 ∧
      ∃ p ∈ q.feeders target, p ∈ r.done ∧ d ≤ weights[target]?.getD 0 + r.costOf p) :
    Steady q weights state c current rest r' := by
  refine ⟨hordered, fun e he => ?_, fun k hk => hr.waits h.waits hk, fun k hk => ?_, fun k hk hw => ?_,
    fun f hf hkind => ?_, fun k hor p hp hpd => ?_, fun k hk hn hw => ?_⟩
  · obtain rfl | hold := (hr.queue e).mp he
    · exact ⟨hr.cost_self.le, hfloor⟩
    · exact ⟨(hr.cost_le _).trans (h.queued e hold).1, (h.queued e hold).2⟩
  · rw [hr.done] at hk
    rw [hr.cost_of_done hk]
    exact h.final k hk
  · have hkt : k ≠ target := fun he => hw (he ▸ (hall (he ▸ hk)).1)
    rw [hr.cost_of_ne hkt]
    exact h.unpriced k hk (hwaiting k hkt ▸ hw)
  · exact Nat.eq_zero_of_le_zero ((hr.cost_le f).trans_eq (h.facts f hf hkind))
  · rw [hr.done] at hpd
    rw [hr.cost_of_done hpd]
    obtain ⟨rfl, hin⟩ | hle := h.least k hor p hp hpd
    · obtain rfl | hin := List.mem_cons.mp hin
      · rw [hr.cost_self]
        exact .inr (.of_le (hany hor))
      · exact .inl ⟨rfl, hin⟩
    · exact .inr (.le_trans (hr.cost_le k) hle)
  · rw [hr.done]
    by_cases hkt : k = target
    · subst hkt
      obtain ⟨-, p, hp, hpd, hle⟩ := hall hk
      exact .inr ⟨p, hp, hpd, by rwa [hr.cost_self, hr.cost_of_done hpd]⟩
    · rw [hwaiting k hkt] at hw
      rw [hr.cost_of_ne hkt]
      refine (h.dearest k hk hn hw).imp_right fun ⟨p, hp, hpd, hle⟩ => ⟨p, hp, hpd, ?_⟩
      rwa [hr.cost_of_done hpd]

/-- **Following an arc out of a final node keeps a pass steady.** -/
theorem followed (hrange : r.InRange q.graph.size) (hcounted : Counted q (target :: rest) r)
    (hlt : target < q.graph.size) (hfeeds : current ∈ q.feeders target) (hcurrent : current ∈ r.done)
    (hc : r.costOf current = c) (hr : Followed q weights current c r target r') :
    Steady q weights state c current rest r' := by
  have hsize : target < r.waiting.size := hrange.waiting ▸ hlt
  cases hr with
  | final hin => exact h.keep (hcounted.needsAll_eq_false hlt hin) (hc ▸ h.final target hin)
  | dearer hany hle => exact h.keep hany (.of_le (hle.trans_eq hc.symm))
  | awaited hall hleft => exact h.await hsize hall hleft
  | lowered hnot hany hless =>
    have hr : Reprices target c r (r.price target c) :=
      ⟨fun _ => costOf_price (hrange.cost ▸ hlt), rfl, fun _ => mem_queue_price, hnot, hless.le⟩
    refine h.reprice hr (h.ordered.push strictOrder_cheaper _) (.of_le le_rfl) (fun _ _ => rfl)
      (fun _ => hc.ge) fun hall => ?_
    rw [hany] at hall
    cases hall
  | settled hnot hall hleft =>
    -- it waited for this arc, so it had no cost yet
    have hwait := hcounted.counts target hall hlt
    rw [List.count_cons_self] at hwait
    have hcap := h.unpriced target hall (by omega)
    refine h.reprice (d := cappedAdd (weights[target]?.getD 0) c)
      ⟨fun _ => costOf_price (hrange.cost ▸ hlt), rfl, fun _ => mem_queue_price, hnot, ?_⟩
      (h.ordered.push strictOrder_cheaper _) (within_cappedAdd _ c)
      (fun k hk => (waitingOf_set hsize).trans (if_neg hk)) (fun hany => ?_)
      fun _ => ⟨?_, current, hfeeds, hcurrent, ?_⟩
    · exact (cappedAdd_le_cap _ _).trans_eq hcap.symm
    · rw [hall] at hany
      cases hany
    · exact (waitingOf_set hsize).trans (if_pos rfl)
    · exact (Nat.min_le_left _ _).trans_eq (by rw [hc])

end Steady

/-! ## Leaving the queue -/

section Leave

variable {e : Nat × Nat} {queue : Heap (Nat × Nat)} (h : Steady q weights state c current [] r)
  (hpop : r.queue.pop? cheaper = some (e, queue))

include h hpop

/-- What leaves the queue is no cheaper than what left before, and nothing cheaper is left behind. -/
theorem Steady.of_pop? : queue.Ordered cheaper ∧ r.costOf e.2 ≤ e.1 ∧ Within c e.1 ∧
    ∀ x ∈ queue.toList, r.costOf x.2 ≤ x.1 ∧ Within e.1 x.1 := by
  have hlist := Heap.toList_of_pop? hpop
  obtain ⟨hordered, hfirst⟩ := h.ordered.of_pop? strictOrder_cheaper hpop
  obtain ⟨hle, hfloor⟩ := h.queued e (hlist.mem_iff.mpr List.mem_cons_self)
  refine ⟨hordered, hle, hfloor, fun x hx => ⟨?_, .of_le (le_of_not_cheaper (hfirst x hx))⟩⟩
  exact (h.queued x (hlist.mem_iff.mpr (List.mem_cons_of_mem _ hx))).1

/-- A node that has a cost still waits, unless its entry left. -/
theorem Steady.waits_of_pop? {k : Nat} (hk : r.costOf k < costCap) (hne : (r.costOf k, k) ≠ e) :
    k ∈ r.done ∨ (r.costOf k, k) ∈ queue.toList :=
  (h.waits k hk).imp_right fun hin =>
    (List.mem_cons.mp ((Heap.toList_of_pop? hpop).mem_iff.mp hin)).resolve_left hne

/-- An entry that is out of date leaves the queue. -/
theorem Steady.drop (hstale : r.costOf e.2 < e.1 ∨ e.2 ∈ r.done) :
    Steady q weights state e.1 e.2 [] { r with queue } := by
  obtain ⟨hordered, -, hfloor, hqueued⟩ := h.of_pop? hpop
  refine { h with
    ordered := hordered
    queued := hqueued
    waits := fun k hk => ?_
    final := fun k hk => (h.final k hk).trans hfloor
    least := fun k hor p hp hpd => .inr ((h.least k hor p hp hpd).resolve_left fun hin => List.not_mem_nil hin.2) }
  by_cases hke : (r.costOf k, k) = e
  · rw [← hke] at hstale
    exact .inl (hstale.resolve_left (Nat.lt_irrefl _))
  · exact h.waits_of_pop? hpop hk hke

/-- A node that leaves the queue at its cost becomes final, with all its arcs to follow. -/
theorem Steady.take (hq : q.Sound) (hid : e.2 < r.done.width) :
    Steady q weights state e.1 e.2 (q.targets e.2) { r with queue, done := r.done.insert e.2 } := by
  obtain ⟨hordered, hle, hfloor, hqueued⟩ := h.of_pop? hpop
  have hdone : ∀ {k : Nat}, k ∈ r.done.insert e.2 ↔ k ∈ r.done ∨ k = e.2 := by simp [IdSet.mem_insert, hid]
  refine { h with
    ordered := hordered
    queued := hqueued
    waits := fun k hk => ?_
    final := fun k hk => ?_
    least := fun k hor p hp hpd => ?_
    dearest := fun k hk hn hw => (h.dearest k hk hn hw).imp_right ?_ }
  · by_cases hke : k = e.2
    · exact .inl (hdone.mpr (.inr hke))
    · refine (h.waits_of_pop? hpop hk fun he => hke (congrArg Prod.snd he)).imp_left fun hin => ?_
      exact hdone.mpr (.inl hin)
  · obtain hk | rfl := hdone.mp hk
    · exact (h.final k hk).trans hfloor
    · exact .of_le hle
  · obtain hpd | rfl := hdone.mp hpd
    · exact .inr ((h.least k hor p hp hpd).resolve_left fun hin => List.not_mem_nil hin.2)
    · exact .inl ⟨rfl, (RelaxedGoal.mem_targets_iff hq).mpr hp⟩
  · rintro ⟨p, hp, hpd, hcost⟩
    exact ⟨p, hp, hdone.mpr (.inl hpd), hcost⟩

end Leave

/-! ## A whole pass -/

section Pass

variable (hq : q.Sound) (hgoal : weights[q.goal]?.getD 0 = 0)

include hq hgoal

theorem steady_start : Steady q weights state 0 0 [] (start q weights state) := by
  have hb : Begun q weights state (start q weights state) := begun_start hq
  refine ⟨hb.ordered, fun e he => ?_, fun id hid => .inr (hb.queue.mem_iff.mpr (hb.entry hid)),
    fun id hid => absurd hid (hb.not_done id), fun id hall hw => hb.other id fun hin => hw ?_,
    fun f hf hkind => hb.priced (0, f) (mem_starters.mpr (.inr (.inr ⟨hf, hkind, rfl⟩))),
    fun id _ p _ hpd => absurd hpd (hb.not_done p), fun id hall hid hw => .inl ?_⟩
  · exact ⟨(hb.priced e (hb.queue.mem_iff.mp he)).le, .of_le (Nat.zero_le _)⟩
  · obtain ⟨e, he, rfl⟩ := List.mem_map.mp hin
    rw [hb.waiting _ (lt_size_of_mem_starters hq he)]
    exact waits_of_mem_starters hq he hall
  · rw [hb.waiting id hid, RelaxedGoal.waits_eq hall, List.length_eq_zero_iff] at hw
    exact ⟨hw, (hb.priced _ (mem_starters_of_alone hgoal hid hall hw)).le⟩

/-- **A pass is steady at every step**, whatever the weights. -/
theorem Pass.steady (h : Pass q weights state log pending r) :
    Steady q weights state (lastOf log).1 (lastOf log).2 pending r ∧
      (pending ≠ [] → r.costOf (lastOf log).2 = (lastOf log).1) := by
  induction h with
  | start => exact ⟨steady_start hq hgoal, fun h => absurd rfl h⟩
  | drop before first stale ih => exact ⟨ih.1.drop first stale, fun h => absurd rfl h⟩
  | take before first live new ih =>
    have hrange := (before.inRange hq).1
    have hid := hrange.queue _ ((Heap.toList_of_pop? first).mem_iff.mpr List.mem_cons_self)
    obtain ⟨-, hle, -⟩ := ih.1.of_pop? first
    exact ⟨ih.1.take first hq (hrange.done ▸ hid), fun _ => hle.antisymm (Nat.le_of_not_lt live)⟩
  | @follow log r e target rest before ih =>
    obtain ⟨hrange, hpending⟩ := before.inRange hq
    obtain ⟨⟨hfeeds, hdone⟩, -⟩ := List.forall_mem_cons.mp hpending
    have hlt := lt_size_of_feeders hq hfeeds
    have hr : Followed q weights e.2 e.1 r target (relax q weights e.2 e.1 r target) := relax_cases
    have hcost := ih.2 (List.cons_ne_nil target rest)
    exact ⟨ih.1.followed hrange (before.counted hq) hlt hfeeds hdone hcost hr,
      fun _ => (hr.costOf_eq hrange.cost hlt hdone).trans hcost⟩

/-- Costs that are no more than feeders afford, below the cap. -/
structure Affords (q : RelaxedGoal) (weights : Array Nat) (state : IdSet) (r : RelaxedCosts) : Prop where
  facts : ∀ f ∈ state, q.graph.isKind f .fact = true → r.costOf f = 0
  any : ∀ id, q.needsAll id = false → ∀ p ∈ q.feeders id, ∀ c < costCap, r.costOf p ≤ c → r.costOf id ≤ c
  all : ∀ id, q.needsAll id = true → id < q.graph.size → ∀ c < costCap, (∀ p ∈ q.feeders id, r.costOf p ≤ c) →
    r.costOf id ≤ weights[id]?.getD 0 + c

/-- **Whatever the weights, no cost that is found is too high.** -/
theorem affords_compute (state : IdSet) : Affords q weights state (compute q weights state) := by
  obtain ⟨log, hpass, hempty⟩ := exists_pass_compute hq weights state
  obtain ⟨hsteady, -⟩ := hpass.steady hq hgoal
  have hcounted := hpass.counted hq
  generalize compute q weights state = r at hempty hsteady hcounted
  have hfinal : ∀ {k c : Nat}, c < costCap → r.costOf k ≤ c → k ∈ r.done := fun hc hk =>
    (hsteady.waits _ (hk.trans_lt hc)).resolve_right fun hin => List.not_mem_nil (hempty ▸ hin)
  refine ⟨hsteady.facts, fun id hany p hp c hc hle => ?_, fun id hall hid c hc hle => ?_⟩
  · have hwithin := (hsteady.least id hany p hp (hfinal hc hle)).resolve_left fun hin => List.not_mem_nil hin.2
    exact (hwithin (hle.trans_lt hc)).trans hle
  · have hwait : r.waitingOf id = 0 := by
      rw [hcounted.counts id hall hid, List.count_nil, Nat.add_zero, List.countP_eq_zero]
      exact fun p hp => by simpa using hfinal hc (hle p hp)
    obtain ⟨-, hcost⟩ | ⟨p, hp, -, hcost⟩ := hsteady.dearest id hall hid hwait
    · exact hcost.trans (Nat.le_add_right ..)
    · exact hcost.trans (Nat.add_le_add_left (hle p hp) _)

end Pass

end RelaxedCosts

end HierPlan
