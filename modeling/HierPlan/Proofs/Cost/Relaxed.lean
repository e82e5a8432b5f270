import HierPlan.Cost.Relaxed
import HierPlan.Proofs.Graph.Worklist
import HierPlan.Proofs.Queue.Heap
import Mathlib.Algebra.Order.BigOperators.Group.List
import Mathlib.Algebra.Order.Group.Nat
import Mathlib.Data.List.Count
import Mathlib.Data.List.Nodup
import Mathlib.Data.Nat.Cast.Basic

/-!
# Proofs/Cost/Relaxed — the costs a pass over the queue ends with

    any:  cost (node) = the least cost of its feeders         facts of the state: 0
    all:  cost (node) = weight + the greatest cost of its feeders, and the supporter has it

Nodes leave the queue in order of their costs, so a node that needs all its feeders is priced by the
dearest of them, and one that needs any by the cheapest.  `RelaxedCosts.Priced` is what a pass keeps true:
every node that is not final but has a cost waits in the queue, and every arc out of a final node was
followed.  **When the queue is empty the costs solve the equations** (`RelaxedCosts.Priced.solved`), and
none of them has reached the cap as long as the weights together stay below it.
-/

namespace HierPlan

/-! ## What a node depends on -/

namespace RelaxedGoal

/-- What a node depends on: the wanted nodes for the goal, predecessors for any other. -/
def feeders (q : RelaxedGoal) (id : Nat) : List Nat :=
  if id = q.goal then q.wanted else ((q.graph.node? id).map (·.predecessors)).getD []

/-- A goal that stands in its graph, whose arcs are listed at both ends alike. -/
structure Sound (q : RelaxedGoal) : Prop where
  goal : q.goal < q.graph.size
  feeders : ∀ id, ∀ p ∈ q.feeders id, p < q.graph.size
  mirror : ∀ id t, (q.targets id).count t = (q.feeders t).count id
  fact : ∀ f, q.graph.isKind f .fact = true → q.needsAll f = false

/-- What all nodes that need all their feeders weigh together. -/
def totalWeight (q : RelaxedGoal) (weights : Array Nat) : Nat :=
  ((List.range q.graph.size).map fun id =>
    if q.needsAll id = true then weights[id]?.getD 0 else 0).sum

theorem waits_eq {q : RelaxedGoal} {id : Nat} (h : q.needsAll id = true) :
    q.waits id = (q.feeders id).length := by
  unfold needsAll at h
  unfold waits feeders
  by_cases hg : id = q.goal
  · rw [if_pos hg, if_pos hg]
  · rw [if_neg hg, if_neg hg]
    cases hn : q.graph.node? id with
    | none =>
      rw [hn] at h
      simp [hg] at h
    | some n =>
      rw [hn] at h
      have hr : n.rule = .all := by simpa [hg] using h
      simp [hr]

theorem mem_targets_iff {q : RelaxedGoal} (hq : q.Sound) {id t : Nat} :
    t ∈ q.targets id ↔ id ∈ q.feeders t := by
  rw [← List.count_pos_iff, hq.mirror, List.count_pos_iff]

end RelaxedGoal

theorem strictOrder_cheaper : StrictOrder cheaper := by
  refine ⟨fun a b h => ?_, fun a b c h k => ?_⟩ <;>
    simp only [cheaper, Bool.or_eq_true, Bool.and_eq_true, decide_eq_true_eq, beq_iff_eq,
      Bool.eq_false_iff, ne_eq, not_or, not_and] at * <;> omega

/-- What is not cheaper costs at least as much. -/
theorem le_of_not_cheaper {a b : Nat × Nat} (h : cheaper a b = false) : b.1 ≤ a.1 := by
  simp only [cheaper, Bool.or_eq_false_iff, decide_eq_false_iff_not, Nat.not_lt] at h
  exact h.1

namespace RelaxedCosts

variable {q : RelaxedGoal} {weights : Array Nat} {state : IdSet} {r : RelaxedCosts}

/-! ## Reading and writing costs -/

/-- How many feeders a node still waits for. -/
def waitingOf (r : RelaxedCosts) (id : Nat) : Nat := r.waiting[id]?.getD 0

theorem costOf_price {id c k : Nat} (hid : id < r.cost.size) :
    (r.price id c).costOf k = if k = id then c else r.costOf k := by
  unfold costOf price
  dsimp only
  rw [Array.getElem?_setIfInBounds]
  by_cases hk : k = id
  · subst hk
    simp [hid]
  · rw [if_neg (Ne.symm hk), if_neg hk]

theorem mem_queue_price {id c : Nat} {e : Nat × Nat} :
    e ∈ (r.price id c).queue.toList ↔ e = (c, id) ∨ e ∈ r.queue.toList := by
  rw [price, (Heap.toList_push cheaper r.queue _).mem_iff, List.mem_cons]

/-- What is weighed by the nodes that wait for nothing more. -/
def spentWeight (q : RelaxedGoal) (weights : Array Nat) (r : RelaxedCosts) : Nat :=
  ((List.range q.graph.size).map fun id =>
    if q.needsAll id = true ∧ r.waitingOf id = 0 then weights[id]?.getD 0 else 0).sum

theorem spentWeight_le (q : RelaxedGoal) (weights : Array Nat) (r : RelaxedCosts) :
    spentWeight q weights r ≤ q.totalWeight weights := by
  refine List.sum_le_sum fun id _ => ?_
  by_cases h : q.needsAll id = true ∧ r.waitingOf id = 0
  · rw [if_pos h, if_pos h.1]
  · rw [if_neg h]
    exact Nat.zero_le _

/-! ## The invariant -/

/-- How a node that needs all its feeders is priced once it waits for none. -/
structure Settles (q : RelaxedGoal) (weights : Array Nat) (r : RelaxedCosts) (id : Nat) : Prop where
  /-- A node without feeders costs its weight. -/
  alone : q.feeders id = [] → r.costOf id = weights[id]?.getD 0
  /-- Any other is priced by its dearest feeder. -/
  supported : q.feeders id ≠ [] → ∃ p ∈ q.feeders id, r.supporterOf id = some p ∧ p ∈ r.done ∧
    r.costOf id = weights[id]?.getD 0 + r.costOf p ∧ ∀ p' ∈ q.feeders id, r.costOf p' ≤ r.costOf p
  below : r.costOf id < costCap

/-- What a pass keeps true, while the arcs from `current` to `pending` are still to be followed and
nothing cheaper than `floor` is left in the queue. -/
structure Priced (q : RelaxedGoal) (weights : Array Nat) (state : IdSet) (floor current : Nat)
    (pending : List Nat) (r : RelaxedCosts) : Prop where
  cost_size : r.cost.size = q.graph.size
  supporter_size : r.supporter.size = q.graph.size
  waiting_size : r.waiting.size = q.graph.size
  done_width : r.done.width = q.graph.size
  ordered : r.queue.Ordered cheaper
  /-- The queue holds costs that were found, none below the floor. -/
  queued : ∀ e ∈ r.queue.toList, e.2 < q.graph.size ∧ r.costOf e.2 ≤ e.1 ∧ floor ≤ e.1 ∧
    e.1 ≤ spentWeight q weights r
  /-- Whatever has a cost is final or waits. -/
  waits : ∀ id, r.costOf id < costCap → id ∈ r.done ∨ (r.costOf id, id) ∈ r.queue.toList
  final : ∀ id ∈ r.done, r.costOf id ≤ floor ∧ r.costOf id < costCap
  spent : ∀ id, r.costOf id < costCap → r.costOf id ≤ spentWeight q weights r
  le_cap : ∀ id, r.costOf id ≤ costCap
  /-- A node still waits for its feeders that are not final, and for arcs not yet followed. -/
  counts : ∀ id, q.needsAll id = true → id < q.graph.size →
    r.waitingOf id = (q.feeders id).countP (fun p => decide (p ∉ r.done)) + pending.count id
  unpriced : ∀ id, q.needsAll id = true → r.waitingOf id ≠ 0 → r.costOf id = costCap
  settles : ∀ id, q.needsAll id = true → id < q.graph.size → r.waitingOf id = 0 →
    Settles q weights r id
  /-- A node that needs any feeder costs no more than one that is final. -/
  least : ∀ id, q.needsAll id = false → ∀ p ∈ q.feeders id, p ∈ r.done →
    (p = current ∧ id ∈ pending) ∨ r.costOf id ≤ r.costOf p
  /-- It costs what one of them costs, unless it is given. -/
  attained : ∀ id, q.needsAll id = false → r.costOf id < costCap →
    (id ∈ state ∧ q.graph.isKind id .fact = true) ∨
      ∃ p ∈ q.feeders id, p ∈ r.done ∧ r.costOf id = r.costOf p
  facts : ∀ f ∈ state, q.graph.isKind f .fact = true → r.costOf f = 0

/-! ## Following an arc -/

section Relax

variable {c current target : Nat} {rest : List Nat}

theorem lt_size_of_feeders (hq : q.Sound) {id p : Nat} (h : p ∈ q.feeders id) :
    id < q.graph.size := by
  by_cases hg : id = q.goal
  · exact hg ▸ hq.goal
  · refine Nat.lt_of_not_le fun hle => ?_
    rw [RelaxedGoal.feeders, if_neg hg, AndOrGraph.node?_eq_none hle] at h
    exact List.not_mem_nil h

/-- An arc to a node that needs any feeder and costs no more already. -/
theorem Priced.keep (h : Priced q weights state c current (target :: rest) r)
    (hany : q.needsAll target = false) (hle : r.costOf target ≤ r.costOf current) :
    Priced q weights state c current rest r := by
  refine { h with
    counts := fun id hall hid => ?_
    least := fun id hor p hp hdone => ?_ }
  · have hne : target ≠ id := fun he => by
      rw [he, hall] at hany
      cases hany
    rw [h.counts id hall hid, List.count_cons_of_ne hne]
  · rcases h.least id hor p hp hdone with ⟨rfl, hin⟩ | hless
    · rcases List.mem_cons.mp hin with rfl | hin
      · exact .inr hle
      · exact .inl ⟨rfl, hin⟩
    · exact .inr hless

/-- What becomes of costs when a node that is not final becomes cheaper and waits. -/
structure Reprices (target d : Nat) (r r' : RelaxedCosts) : Prop where
  cost : ∀ k, r'.costOf k = if k = target then d else r.costOf k
  done : r'.done = r.done
  queue : ∀ e, e ∈ r'.queue.toList ↔ e = (d, target) ∨ e ∈ r.queue.toList
  fresh : target ∉ r.done
  less : d ≤ r.costOf target

namespace Reprices

variable {d : Nat} {r' : RelaxedCosts}

theorem cost_of_ne (hr : Reprices target d r r') {k : Nat} (hk : k ≠ target) : r'.costOf k = r.costOf k := by
  rw [hr.cost, if_neg hk]

theorem cost_self (hr : Reprices target d r r') : r'.costOf target = d := by rw [hr.cost, if_pos rfl]

/-- Final costs stay. -/
theorem cost_of_done (hr : Reprices target d r r') {k : Nat} (hk : k ∈ r.done) : r'.costOf k = r.costOf k :=
  hr.cost_of_ne fun he => hr.fresh (he ▸ hk)

/-- Nothing becomes dearer. -/
theorem cost_le (hr : Reprices target d r r') (k : Nat) : r'.costOf k ≤ r.costOf k := by
  by_cases hk : k = target
  · rw [hk, hr.cost_self]
    exact hr.less
  · exact (hr.cost_of_ne hk).le

variable (hr : Reprices target d r r') (h : Priced q weights state c current (target :: rest) r)

include hr h

theorem queued (hlt : target < q.graph.size) (hfloor : c ≤ d) (hspent : d ≤ spentWeight q weights r')
    (hmore : spentWeight q weights r ≤ spentWeight q weights r') :
    ∀ e ∈ r'.queue.toList, e.2 < q.graph.size ∧ r'.costOf e.2 ≤ e.1 ∧ c ≤ e.1 ∧
      e.1 ≤ spentWeight q weights r' := by
  intro e he
  rcases (hr.queue e).mp he with rfl | he
  · exact ⟨hlt, hr.cost_self.le, hfloor, hspent⟩
  · obtain ⟨hn, hold, hbelow, hsp⟩ := h.queued e he
    exact ⟨hn, (hr.cost_le _).trans hold, hbelow, hsp.trans hmore⟩

omit h in
/-- Whatever has a cost is final or waits, still. -/
theorem waits (hwaits : ∀ k, r.costOf k < costCap → k ∈ r.done ∨ (r.costOf k, k) ∈ r.queue.toList) {k : Nat}
    (hk : r'.costOf k < costCap) : k ∈ r'.done ∨ (r'.costOf k, k) ∈ r'.queue.toList := by
  rw [hr.queue, hr.done]
  by_cases hkt : k = target
  · rw [hkt, hr.cost_self]
    exact .inr (.inl rfl)
  · rw [hr.cost_of_ne hkt] at hk ⊢
    exact (hwaits k hk).imp id .inr

theorem final {k : Nat} (hk : k ∈ r'.done) : r'.costOf k ≤ c ∧ r'.costOf k < costCap := by
  rw [hr.done] at hk
  rw [hr.cost_of_done hk]
  exact h.final k hk

theorem spent (hspent : d ≤ spentWeight q weights r')
    (hmore : spentWeight q weights r ≤ spentWeight q weights r') {k : Nat} (hk : r'.costOf k < costCap) :
    r'.costOf k ≤ spentWeight q weights r' := by
  by_cases hkt : k = target
  · rw [hkt, hr.cost_self]
    exact hspent
  · rw [hr.cost_of_ne hkt] at hk ⊢
    exact (h.spent k hk).trans hmore

omit h in
/-- Other nodes that need all their feeders stay priced. -/
theorem settles {k : Nat} (hkt : k ≠ target) (hsupporter : r'.supporterOf k = r.supporterOf k)
    (hk : Settles q weights r k) : Settles q weights r' k := by
  obtain ⟨halone, hsupported, hbelow⟩ := hk
  refine ⟨fun hnil => ?_, fun hsome => ?_, (hr.cost_le k).trans_lt hbelow⟩
  · rw [hr.cost_of_ne hkt]
    exact halone hnil
  · obtain ⟨p, hp, hsup, hpd, hsum, hmax⟩ := hsupported hsome
    refine ⟨p, hp, hsupporter.trans hsup, hr.done ▸ hpd, ?_, fun p' hp' => ?_⟩
    · rw [hr.cost_of_ne hkt, hr.cost_of_done hpd, hsum]
    · rw [hr.cost_of_done hpd]
      exact (hr.cost_le p').trans (hmax p' hp')

/-- Other nodes that need any feeder stay priced. -/
theorem least {k p : Nat} (hkt : k ≠ target) (hor : q.needsAll k = false) (hp : p ∈ q.feeders k)
    (hpd : p ∈ r'.done) : (p = current ∧ k ∈ rest) ∨ r'.costOf k ≤ r'.costOf p := by
  rw [hr.done] at hpd
  rw [hr.cost_of_done hpd, hr.cost_of_ne hkt]
  exact (h.least k hor p hp hpd).imp (fun hin => ⟨hin.1, (List.mem_cons.mp hin.2).resolve_left hkt⟩) id

theorem attained {k : Nat} (hkt : k ≠ target) (hor : q.needsAll k = false) (hk : r'.costOf k < costCap) :
    (k ∈ state ∧ q.graph.isKind k .fact = true) ∨
      ∃ p ∈ q.feeders k, p ∈ r'.done ∧ r'.costOf k = r'.costOf p := by
  rw [hr.cost_of_ne hkt] at hk ⊢
  refine (h.attained k hor hk).imp id ?_
  rintro ⟨p, hp, hpd, he⟩
  exact ⟨p, hp, hr.done ▸ hpd, he.trans (hr.cost_of_done hpd).symm⟩

end Reprices

/-- An arc to a node that needs any feeder and becomes cheaper. -/
theorem Priced.lower (h : Priced q weights state c current (target :: rest) r)
    (hfeeds : current ∈ q.feeders target) (hlt : target < q.graph.size)
    (hcurrent : current ∈ r.done) (hc : r.costOf current = c)
    (hnot : target ∉ r.done) (hany : q.needsAll target = false) (hless : c < r.costOf target) :
    Priced q weights state c current rest (r.price target c) := by
  have hcap : c < costCap := hc ▸ (h.final current hcurrent).2
  have hspent : c ≤ spentWeight q weights r := hc ▸ h.spent current (hc ▸ hcap)
  have hr : Reprices target c r (r.price target c) :=
    ⟨fun _ => costOf_price (h.cost_size ▸ hlt), rfl, fun _ => mem_queue_price, hnot, hless.le⟩
  have hne : ∀ id, q.needsAll id = true → id ≠ target := fun id hall he => by
    rw [he, hany] at hall
    cases hall
  refine ⟨(Array.size_setIfInBounds ..).trans h.cost_size, h.supporter_size, h.waiting_size,
    h.done_width, h.ordered.push strictOrder_cheaper _, hr.queued h hlt le_rfl hspent le_rfl,
    fun k hk => hr.waits h.waits hk, fun k hk => hr.final h hk, fun k hk => hr.spent h hspent le_rfl hk,
    fun k => (hr.cost_le k).trans (h.le_cap k), fun k hall hk => ?_, fun k hall hk => ?_,
    fun k hall hk hw => hr.settles (hne k hall) rfl (h.settles k hall hk hw),
    fun k hor p hp hpd => ?_, fun k hor hk => ?_, fun f hf hkind => ?_⟩
  · exact (h.counts k hall hk).trans (by rw [List.count_cons_of_ne (hne k hall).symm]; rfl)
  · rw [hr.cost_of_ne (hne k hall)]
    exact h.unpriced k hall hk
  · by_cases hkt : k = target
    · subst hkt
      rw [hr.cost_self, hr.cost_of_done hpd]
      rcases h.least k hor p hp hpd with ⟨rfl, -⟩ | hold
      · exact .inr hc.ge
      · exact .inr (hless.le.trans hold)
    · exact hr.least h hkt hor hp hpd
  · by_cases hkt : k = target
    · subst hkt
      refine .inr ⟨current, hfeeds, hcurrent, ?_⟩
      rw [hr.cost_self, hr.cost_of_done hcurrent, hc]
    · exact hr.attained h hkt hor hk
  · have hzero := h.facts f hf hkind
    have hft : f ≠ target := fun he => by
      rw [← he, hzero] at hless
      exact Nat.not_lt_zero _ hless
    rw [hr.cost_of_ne hft, hzero]

theorem waitingOf_set {w : Array Nat} {id k left : Nat} (hid : id < w.size) :
    (w.setIfInBounds id left)[k]?.getD 0 = if k = id then left else w[k]?.getD 0 := by
  rw [Array.getElem?_setIfInBounds]
  by_cases hk : k = id
  · subst hk
    simp [hid]
  · rw [if_neg (Ne.symm hk), if_neg hk]

/-- A node that goes on waiting for more changes nothing about which nodes wait for none. -/
theorem waitingOf_await_eq_zero (hlt : target < r.waiting.size) (hleft : r.waitingOf target - 1 ≠ 0) (k : Nat) :
    ({ r with waiting := r.waiting.setIfInBounds target (r.waitingOf target - 1) } : RelaxedCosts).waitingOf k = 0 ↔
      r.waitingOf k = 0 := by
  have hwait : ({ r with waiting := r.waiting.setIfInBounds target (r.waitingOf target - 1) } :
      RelaxedCosts).waitingOf k = if k = target then r.waitingOf target - 1 else r.waitingOf k := waitingOf_set hlt
  rw [hwait]
  split
  · rename_i hk
    rw [hk]
    omega
  · exact Iff.rfl

theorem supporterOf_set {w : Array (Option Nat)} {id k p : Nat} (hid : id < w.size) :
    ((w.setIfInBounds id (some p))[k]?).join = if k = id then some p else (w[k]?).join := by
  rw [Array.getElem?_setIfInBounds]
  by_cases hk : k = id
  · subst hk
    simp [hid]
  · rw [if_neg (Ne.symm hk), if_neg hk]

/-- An arc to a node that still waits for more. -/
theorem Priced.await (h : Priced q weights state c current (target :: rest) r)
    (hlt : target < q.graph.size) (hall : q.needsAll target = true)
    (hleft : r.waitingOf target - 1 ≠ 0) :
    Priced q weights state c current rest
      { r with waiting := r.waiting.setIfInBounds target (r.waitingOf target - 1) } := by
  have hwait : ∀ k, ({ r with waiting := r.waiting.setIfInBounds target (r.waitingOf target - 1) } :
      RelaxedCosts).waitingOf k = if k = target then r.waitingOf target - 1 else r.waitingOf k :=
    fun k => waitingOf_set (h.waiting_size ▸ hlt)
  have hzero := waitingOf_await_eq_zero (h.waiting_size ▸ hlt) hleft
  have hspent : spentWeight q weights { r with
      waiting := r.waiting.setIfInBounds target (r.waitingOf target - 1) } = spentWeight q weights r := by
    unfold spentWeight
    simp only [hzero]
  refine { h with
    waiting_size := (Array.size_setIfInBounds ..).trans h.waiting_size
    queued := fun e he => ?_
    spent := fun k hk => ?_
    counts := fun k hk hn => ?_
    unpriced := fun k hk hw => h.unpriced k hk fun hz => hw ((hzero k).mpr hz)
    settles := fun k hk hn hw => ?_
    least := fun k hor p hp hpd => ?_ }
  · rw [hspent]
    exact h.queued e he
  · rw [hspent]
    exact h.spent k hk
  · change _ = (q.feeders k).countP (fun p => decide (p ∉ r.done)) + rest.count k
    rw [hwait, h.counts target hall hlt, h.counts k hk hn]
    split
    · rename_i hkt
      rw [hkt, List.count_cons_self]
      omega
    · rename_i hkt
      rw [List.count_cons_of_ne (Ne.symm hkt)]
  · obtain ⟨halone, hsupported, hbelow⟩ := h.settles k hk hn ((hzero k).mp hw)
    exact ⟨halone, hsupported, hbelow⟩
  · refine (h.least k hor p hp hpd).imp (fun hin => ⟨hin.1, ?_⟩) id
    refine (List.mem_cons.mp hin.2).resolve_left fun hkt => ?_
    rw [hkt, hall] at hor
    cases hor

/-- What a node weighs is spent once it waits for nothing more. -/
theorem spentWeight_settle {r' : RelaxedCosts} (hlt : target < q.graph.size)
    (hall : q.needsAll target = true) (hbefore : r.waitingOf target ≠ 0)
    (hafter : r'.waitingOf target = 0) (hsame : ∀ k, k ≠ target → r'.waitingOf k = r.waitingOf k) :
    spentWeight q weights r + weights[target]?.getD 0 ≤ spentWeight q weights r' := by
  refine sum_add_le_sum hlt ?_ fun k hk => ?_
  · rw [if_neg fun hboth => hbefore hboth.2, Nat.zero_add, if_pos ⟨hall, hafter⟩]
  · rw [hsame k hk]

/-- A node that waits for one arc alone has final feeders only, and is new to the queue. -/
theorem Priced.last_arc (h : Priced q weights state c current (target :: rest) r)
    (hlt : target < q.graph.size) (hall : q.needsAll target = true) (hleft : r.waitingOf target - 1 = 0) :
    r.waitingOf target = 1 ∧ rest.count target = 0 ∧ (∀ p ∈ q.feeders target, p ∈ r.done) ∧
      r.costOf target = costCap ∧ target ∉ r.done := by
  have hcounts := h.counts target hall hlt
  rw [List.count_cons_self] at hcounts
  have hunpriced := h.unpriced target hall (by omega)
  refine ⟨by omega, by omega, fun p hp => ?_, hunpriced, fun hin => ?_⟩
  · have hnone : (q.feeders target).countP (fun p => decide (p ∉ r.done)) = 0 := by omega
    rw [List.countP_eq_zero] at hnone
    simpa using hnone p hp
  · have hless := (h.final target hin).2
    omega

/-- The last arc to a node that needs all its feeders. -/
theorem Priced.settle (hq : q.Sound) (htotal : q.totalWeight weights < costCap)
    (h : Priced q weights state c current (target :: rest) r)
    (hfeeds : current ∈ q.feeders target) (hcurrent : current ∈ r.done) (hc : r.costOf current = c)
    (hall : q.needsAll target = true) (hleft : r.waitingOf target - 1 = 0) :
    Priced q weights state c current rest
      (({ r with
          waiting := r.waiting.setIfInBounds target 0
          supporter := r.supporter.setIfInBounds target (some current) } : RelaxedCosts).price target
        (cappedAdd (weights[target]?.getD 0) c)) := by
  have hlt := lt_size_of_feeders hq hfeeds
  generalize hr' : (({ r with
      waiting := r.waiting.setIfInBounds target 0
      supporter := r.supporter.setIfInBounds target (some current) } : RelaxedCosts).price target
    (cappedAdd (weights[target]?.getD 0) c)) = r'
  obtain ⟨hone, hrest, hfinal, hunpriced, hnot⟩ := h.last_arc hlt hall hleft
  have hwait : ∀ k, r'.waitingOf k = if k = target then 0 else r.waitingOf k := fun k => by
    rw [← hr']
    exact waitingOf_set (h.waiting_size ▸ hlt)
  -- Its weight was not spent before, so the sum does not reach the cap.
  have hcap : c < costCap := hc ▸ (h.final current hcurrent).2
  have hspent : c ≤ spentWeight q weights r := hc ▸ h.spent current (hc ▸ hcap)
  have hmore : spentWeight q weights r + weights[target]?.getD 0 ≤ spentWeight q weights r' :=
    spentWeight_settle hlt hall (by omega) ((hwait target).trans (if_pos rfl))
      (fun k hk => (hwait k).trans (if_neg hk))
  have hbound := (spentWeight_le q weights r').trans_lt htotal
  have hsum : cappedAdd (weights[target]?.getD 0) c = weights[target]?.getD 0 + c :=
    cappedAdd_eq (by omega)
  have hr : Reprices target (weights[target]?.getD 0 + c) r r' := by
    refine ⟨fun k => ?_, ?_, fun e => ?_, hnot, by omega⟩ <;> rw [← hr']
    · rw [hsum]
      exact costOf_price (h.cost_size ▸ hlt)
    · rfl
    · rw [hsum]
      exact mem_queue_price
  have hsupporter : ∀ k, r'.supporterOf k = if k = target then some current else r.supporterOf k :=
    fun k => by
      rw [← hr']
      exact supporterOf_set (h.supporter_size ▸ hlt)
  have hne : ∀ k, q.needsAll k = false → k ≠ target := fun k hor he => by
    rw [he, hall] at hor
    cases hor
  refine ⟨?_, ?_, ?_, hr.done ▸ h.done_width, ?_,
    hr.queued h hlt (Nat.le_add_left _ _) (by omega) (by omega), fun k hk => hr.waits h.waits hk,
    fun k hk => hr.final h hk, fun k hk => hr.spent h (by omega) (by omega) hk,
    fun k => (hr.cost_le k).trans (h.le_cap k), fun k hk hn => ?_, fun k hk hw => ?_, fun k hk hn hw => ?_,
    fun k hor p hp hpd => hr.least h (hne k hor) hor hp hpd,
    fun k hor hk => hr.attained h (hne k hor) hor hk,
    fun f hf hkind => (hr.cost_of_ne (hne f (hq.fact f hkind))).trans (h.facts f hf hkind)⟩
  · rw [← hr']
    exact (Array.size_setIfInBounds ..).trans h.cost_size
  · rw [← hr']
    exact (Array.size_setIfInBounds ..).trans h.supporter_size
  · rw [← hr']
    exact (Array.size_setIfInBounds ..).trans h.waiting_size
  · rw [← hr']
    exact h.ordered.push strictOrder_cheaper _
  · rw [hwait, hr.done, h.counts k hk hn]
    split
    · rename_i hkt
      have hcounts := h.counts target hall hlt
      rw [List.count_cons_self] at hcounts
      rw [hkt]
      omega
    · rename_i hkt
      rw [List.count_cons_of_ne (Ne.symm hkt)]
  · rw [hwait] at hw
    by_cases hkt : k = target
    · exact absurd (if_pos hkt) hw
    · rw [if_neg hkt] at hw
      rw [hr.cost_of_ne hkt, h.unpriced k hk hw]
  · by_cases hkt : k = target
    · subst hkt
      refine ⟨fun hnil => absurd (hnil ▸ hfeeds) List.not_mem_nil, fun _ => ?_, ?_⟩
      · refine ⟨current, hfeeds, by rw [hsupporter, if_pos rfl], hr.done ▸ hcurrent, ?_, fun p hp => ?_⟩
        · rw [hr.cost_self, hr.cost_of_done hcurrent, hc]
        · rw [hr.cost_of_done hcurrent, hr.cost_of_done (hfinal p hp), hc]
          exact (h.final p (hfinal p hp)).1
      · rw [hr.cost_self]
        omega
    · rw [hwait, if_neg hkt] at hw
      exact hr.settles hkt (by rw [hsupporter, if_neg hkt]) (h.settles k hk hn hw)

/-! ### What following an arc does -/

/-- What becomes of the costs when an arc out of the node `id`, of cost `c`, is followed to `target`. -/
inductive Followed (q : RelaxedGoal) (weights : Array Nat) (id c : Nat) (r : RelaxedCosts) (target : Nat) :
    RelaxedCosts → Prop where
  /-- The target is final. -/
  | final (hin : target ∈ r.done) : Followed q weights id c r target r
  /-- The target needs all its feeders, and waits for others still. -/
  | awaited (hall : q.needsAll target = true) (hleft : r.waitingOf target - 1 ≠ 0) :
      Followed q weights id c r target
        { r with waiting := r.waiting.setIfInBounds target (r.waitingOf target - 1) }
  /-- The target needs all its feeders, and this was the last. -/
  | settled (hnot : target ∉ r.done) (hall : q.needsAll target = true) (hleft : r.waitingOf target - 1 = 0) :
      Followed q weights id c r target
        (({ r with
            waiting := r.waiting.setIfInBounds target 0
            supporter := r.supporter.setIfInBounds target (some id) } : RelaxedCosts).price target
          (cappedAdd (weights[target]?.getD 0) c))
  /-- The target needs one feeder, and this one is the cheapest so far. -/
  | lowered (hnot : target ∉ r.done) (hany : q.needsAll target = false) (hless : c < r.costOf target) :
      Followed q weights id c r target (r.price target c)
  /-- The target needs one feeder, and had one as cheap. -/
  | dearer (hany : q.needsAll target = false) (hle : r.costOf target ≤ c) : Followed q weights id c r target r

/-- **Following an arc does one of five things.** -/
theorem relax_cases {id : Nat} : Followed q weights id c r target (relax q weights id c r target) := by
  unfold relax
  split
  · rename_i hin
    exact .final hin
  rename_i hnot
  split
  · rename_i hall
    dsimp only
    split
    · rename_i hleft
      rw [hleft]
      exact .settled hnot hall hleft
    · rename_i hleft
      exact .awaited hall hleft
  rename_i hall
  split
  · rename_i hless
    exact .lowered hnot (Bool.eq_false_iff.mpr hall) hless
  · rename_i hless
    exact .dearer (Bool.eq_false_iff.mpr hall) (Nat.le_of_not_lt hless)

section Followed

variable {r' : RelaxedCosts}

/-- **Following an arc out of a final node keeps the invariant.** -/
theorem Priced.followed (hq : q.Sound) (htotal : q.totalWeight weights < costCap)
    (h : Priced q weights state c current (target :: rest) r)
    (hfeeds : current ∈ q.feeders target) (hcurrent : current ∈ r.done) (hc : r.costOf current = c)
    (hr : Followed q weights current c r target r') : Priced q weights state c current rest r' := by
  have hlt := lt_size_of_feeders hq hfeeds
  cases hr with
  | final hin =>
    -- A final node that needs all its feeders waits for none, so this one is of the other kind.
    have hfinal := h.final target hin
    refine h.keep (Bool.eq_false_iff.mpr fun hall => ?_) (hc ▸ hfinal.1)
    have hcounts := h.counts target hall hlt
    rw [List.count_cons_self] at hcounts
    have hcap := h.unpriced target hall (by omega)
    omega
  | awaited hall hleft => exact h.await hlt hall hleft
  | settled hnot hall hleft => exact h.settle hq htotal hfeeds hcurrent hc hall hleft
  | lowered hnot hany hless => exact h.lower hfeeds hlt hcurrent hc hnot hany hless
  | dearer hany hle => exact h.keep hany (hc ▸ hle)

/-- Following an arc makes nothing final. -/
theorem Followed.done_eq (hr : Followed q weights current c r target r') : r'.done = r.done := by
  cases hr <;> rfl

/-- Following an arc changes the cost of no final node. -/
theorem Followed.costOf_eq (hr : Followed q weights current c r target r') (hsize : r.cost.size = q.graph.size)
    (hlt : target < q.graph.size) {k : Nat} (hk : k ∈ r.done) : r'.costOf k = r.costOf k := by
  cases hr with
  | final | awaited | dearer => rfl
  | settled hnot | lowered hnot =>
    have hkt : k ≠ target := fun he => hnot (he ▸ hk)
    exact (costOf_price (hsize ▸ hlt)).trans (if_neg hkt)

theorem size_queue_price {id k : Nat} : (r.price id k).queue.size = r.queue.size + 1 := by
  rw [price, ← Heap.length_toList, (Heap.toList_push cheaper r.queue _).length_eq, List.length_cons,
    Heap.length_toList]

/-- Following an arc puts at most one entry into the queue. -/
theorem Followed.size_queue_le (hr : Followed q weights current c r target r') :
    r'.queue.size ≤ r.queue.size + 1 := by
  cases hr with
  | final | awaited | dearer => exact Nat.le_succ _
  | settled | lowered => exact size_queue_price.le

end Followed

end Relax

/-! ## Leaving the queue -/

section Leave

variable {floor current : Nat}

/-- Those outside a set are counted less by a new member. -/
theorem countP_insert {s : IdSet} {id : Nat} (hid : id < s.width) (hnot : id ∉ s) (ps : List Nat) :
    ps.countP (fun p => decide (p ∉ s)) = ps.countP (fun p => decide (p ∉ s.insert id)) + ps.count id := by
  have hmem : ∀ {p : Nat}, p ∈ s.insert id ↔ p ∈ s ∨ p = id := by simp [IdSet.mem_insert, hid]
  induction ps with
  | nil => rfl
  | cons p ps ih =>
    rw [List.countP_cons, List.countP_cons, List.count_cons, ih]
    by_cases hp : p = id
    · subst hp
      simp [hnot, hmem]
      omega
    · by_cases hin : p ∈ s <;> simp [hin, hp, hmem]
      omega

/-- A node that leaves the queue at its cost becomes final, with all its arcs to follow. -/
theorem Priced.take (hq : q.Sound) (htotal : q.totalWeight weights < costCap)
    (h : Priced q weights state floor current [] r) {c id : Nat} {queue : Heap (Nat × Nat)}
    (hpop : r.queue.pop? cheaper = some ((c, id), queue)) (hlive : ¬ r.costOf id < c)
    (hnot : id ∉ r.done) :
    Priced q weights state c id (q.targets id) { r with queue, done := r.done.insert id } ∧
      r.costOf id = c := by
  have hlist := Heap.toList_of_pop? hpop
  obtain ⟨hordered, hfirst⟩ := h.ordered.of_pop? strictOrder_cheaper hpop
  obtain ⟨hid, hle, hfloor, hsp⟩ := h.queued (c, id) (hlist.mem_iff.mpr List.mem_cons_self)
  have hcost : r.costOf id = c := Nat.le_antisymm hle (Nat.le_of_not_lt hlive)
  have hcap : c < costCap := (hsp.trans (spentWeight_le q weights r)).trans_lt htotal
  have hdone : ∀ {k : Nat}, k ∈ r.done.insert id ↔ k ∈ r.done ∨ k = id := by
    intro k
    rw [IdSet.mem_insert, h.done_width]
    simp [show id < q.graph.size from hid]
  refine ⟨⟨h.cost_size, h.supporter_size, h.waiting_size, (IdSet.width_insert ..).trans h.done_width,
    hordered, fun e he => ?_, fun k hk => ?_, fun k hk => ?_, h.spent, h.le_cap, fun k hall hk => ?_,
    h.unpriced, fun k hall hk hw => ?_, fun k hor p hp hpd => ?_, fun k hor hk => ?_, h.facts⟩, hcost⟩
  · obtain ⟨hn, hcoste, -, hspe⟩ := h.queued e (hlist.mem_iff.mpr (List.mem_cons_of_mem _ he))
    exact ⟨hn, hcoste, le_of_not_cheaper (hfirst e he), hspe⟩
  · change k ∈ r.done.insert id ∨ _
    by_cases hki : k = id
    · exact .inl (hdone.mpr (.inr hki))
    · refine (h.waits k hk).imp (fun hin => hdone.mpr (.inl hin)) fun hin => ?_
      refine (List.mem_cons.mp (hlist.mem_iff.mp hin)).resolve_left fun he => ?_
      exact hki (Prod.mk.inj he).2
  · rcases hdone.mp hk with hk | rfl
    · exact ⟨(h.final k hk).1.trans hfloor, (h.final k hk).2⟩
    · exact ⟨hcost.le, hcost.trans_lt hcap⟩
  · rw [hq.mirror]
    exact (h.counts k hall hk).trans (countP_insert (h.done_width ▸ hid) hnot _)
  · obtain ⟨halone, hsupported, hbelow⟩ := h.settles k hall hk hw
    refine ⟨halone, fun hsome => ?_, hbelow⟩
    obtain ⟨p, hp, hsup, hpd, hrest⟩ := hsupported hsome
    exact ⟨p, hp, hsup, hdone.mpr (.inl hpd), hrest⟩
  · rcases hdone.mp hpd with hpd | rfl
    · refine .inr ((h.least k hor p hp hpd).resolve_left fun hin => ?_)
      exact List.not_mem_nil hin.2
    · exact .inl ⟨rfl, (RelaxedGoal.mem_targets_iff hq).mpr hp⟩
  · refine (h.attained k hor hk).imp_right ?_
    rintro ⟨p, hp, hpd, he⟩
    exact ⟨p, hp, hdone.mpr (.inl hpd), he⟩

/-- An entry that is out of date leaves the queue. -/
theorem Priced.drop (h : Priced q weights state floor current [] r) {c id : Nat}
    {queue : Heap (Nat × Nat)} (hpop : r.queue.pop? cheaper = some ((c, id), queue))
    (hstale : r.costOf id < c ∨ id ∈ r.done) :
    Priced q weights state c id [] { r with queue } := by
  have hlist := Heap.toList_of_pop? hpop
  obtain ⟨hordered, hfirst⟩ := h.ordered.of_pop? strictOrder_cheaper hpop
  obtain ⟨-, -, hfloor, -⟩ := h.queued (c, id) (hlist.mem_iff.mpr List.mem_cons_self)
  refine { h with
    ordered := hordered
    queued := fun e he => ?_
    waits := fun k hk => ?_
    final := fun k hk => ⟨(h.final k hk).1.trans hfloor, (h.final k hk).2⟩
    settles := fun k hall hk hw => ?_
    least := fun k hor p hp hpd => .inr ((h.least k hor p hp hpd).resolve_left fun hin => ?_) }
  · obtain ⟨hn, hcost, -, hspent⟩ := h.queued e (hlist.mem_iff.mpr (List.mem_cons_of_mem _ he))
    exact ⟨hn, hcost, le_of_not_cheaper (hfirst e he), hspent⟩
  · refine or_iff_not_imp_left.mpr fun hnot => ?_
    have hin := (h.waits k hk).resolve_left hnot
    refine (List.mem_cons.mp (hlist.mem_iff.mp hin)).resolve_left fun he => ?_
    obtain ⟨hc, rfl⟩ := Prod.mk.inj he
    exact hstale.elim (fun hlt => Nat.lt_irrefl _ (hc ▸ hlt)) hnot
  · obtain ⟨halone, hsupported, hbelow⟩ := h.settles k hall hk hw
    exact ⟨halone, hsupported, hbelow⟩
  · exact List.not_mem_nil hin.2

/-- How often anything may still enter or leave the queue. -/
def effort (q : RelaxedGoal) (r : RelaxedCosts) : Nat :=
  r.queue.size + ((List.range q.graph.size).map fun id =>
    if id ∈ r.done then 0 else (q.targets id).length).sum

theorem size_of_pop? {e : Nat × Nat} {queue : Heap (Nat × Nat)}
    (hpop : r.queue.pop? cheaper = some (e, queue)) : r.queue.size = queue.size + 1 := by
  rw [← Heap.length_toList, (Heap.toList_of_pop? hpop).length_eq, List.length_cons,
    Heap.length_toList]

/-- A new member takes its share off a sum over the ids outside a set. -/
theorem sum_outside_insert (f : Nat → Nat) {s : IdSet} {id n : Nat} (hid : id < n)
    (hwidth : s.width = n) (hnot : id ∉ s) :
    ((List.range n).map fun k => if k ∈ s.insert id then 0 else f k).sum + f id ≤
      ((List.range n).map fun k => if k ∈ s then 0 else f k).sum := by
  refine sum_add_le_sum hid ?_ fun k hk => ?_
  · rw [if_neg hnot, if_pos (IdSet.mem_insert.mpr (.inr ⟨rfl, hwidth ▸ hid⟩)), Nat.zero_add]
  · have hiff : k ∈ s.insert id ↔ k ∈ s := by
      rw [IdSet.mem_insert]
      exact or_iff_left fun hboth => hk hboth.1
    simp only [hiff, le_refl]

end Leave

/-! ## The start -/

section Start

/-- Prices entries one after another. -/
def priceAll (entries : List (Nat × Nat)) (r : RelaxedCosts) : RelaxedCosts :=
  entries.foldl (fun r e => r.price e.2 e.1) r

/-- Before anything is priced. -/
def blank (q : RelaxedGoal) : RelaxedCosts where
  cost := Array.replicate q.graph.size costCap
  supporter := Array.replicate q.graph.size none
  waiting := (Array.range q.graph.size).map q.waits
  done := .empty q.graph.size
  queue := .empty

/-- What is priced at the start. -/
def starters (q : RelaxedGoal) (weights : Array Nat) (state : IdSet) : List (Nat × Nat) :=
  ((q.graph.ids.filter fun id => id != q.goal && q.needsAll id && q.waits id == 0).map
      fun id => (weights[id]?.getD 0, id)) ++
    (if q.wanted.isEmpty then [(0, q.goal)] else []) ++
    (state.toList.filter fun f => q.graph.isKind f .fact).map fun f => (0, f)

theorem start_eq (q : RelaxedGoal) (weights : Array Nat) (state : IdSet) :
    start q weights state = priceAll (starters q weights state) (blank q) := by
  unfold start starters priceAll
  rw [List.foldl_append, List.foldl_append, List.foldl_map, List.foldl_map]
  split <;> rfl

theorem priceAll_cons (e : Nat × Nat) (entries : List (Nat × Nat)) (r : RelaxedCosts) :
    priceAll (e :: entries) r = priceAll entries (r.price e.2 e.1) := rfl

/-- **Pricing nodes once each gives them their costs**, and queues what was priced. -/
theorem priceAll_spec {entries : List (Nat × Nat)} {n : Nat} (hlt : ∀ e ∈ entries, e.2 < n)
    (hnodup : (entries.map (·.2)).Nodup) {r : RelaxedCosts} (hsize : r.cost.size = n)
    (hordered : r.queue.Ordered cheaper) :
    (priceAll entries r).cost.size = n ∧ (priceAll entries r).supporter = r.supporter ∧
      (priceAll entries r).waiting = r.waiting ∧ (priceAll entries r).done = r.done ∧
      (priceAll entries r).queue.Ordered cheaper ∧
      (priceAll entries r).queue.toList.Perm (entries ++ r.queue.toList) ∧
      (∀ e ∈ entries, (priceAll entries r).costOf e.2 = e.1) ∧
      ∀ k, k ∉ entries.map (·.2) → (priceAll entries r).costOf k = r.costOf k := by
  induction entries generalizing r with
  | nil => exact ⟨hsize, rfl, rfl, rfl, hordered, .refl _, fun _ he => absurd he List.not_mem_nil,
      fun _ _ => rfl⟩
  | cons e entries ih =>
    obtain ⟨helt, hlt⟩ := List.forall_mem_cons.mp hlt
    rw [List.map_cons, List.nodup_cons] at hnodup
    rw [priceAll_cons]
    obtain ⟨hcost, hsup, hwait, hdone, hord, hqueue, hpriced, hother⟩ := ih hlt hnodup.2
      (r := r.price e.2 e.1) ((Array.size_setIfInBounds ..).trans hsize)
      (hordered.push strictOrder_cheaper _)
    refine ⟨hcost, hsup, hwait, hdone, hord, ?_, ?_, fun k hk => ?_⟩
    · refine hqueue.trans ?_
      exact ((Heap.toList_push cheaper r.queue e).append_left entries).trans List.perm_middle
    · refine List.forall_mem_cons.mpr ⟨?_, hpriced⟩
      rw [hother _ hnodup.1, costOf_price (hsize ▸ helt), if_pos rfl]
    · rw [List.map_cons, List.mem_cons, not_or] at hk
      rw [hother k hk.2, costOf_price (hsize ▸ helt), if_neg hk.1]

/-- What is priced at the start waits for nothing: a node that needs no feeder at its weight, a fact
of the state at nothing. -/
theorem mem_starters {e : Nat × Nat} :
    e ∈ starters q weights state ↔
      (e.2 ∈ q.graph.ids ∧ e.2 ≠ q.goal ∧ q.needsAll e.2 = true ∧ q.waits e.2 = 0 ∧
        e.1 = weights[e.2]?.getD 0) ∨
      (q.wanted = [] ∧ e = (0, q.goal)) ∨
      (e.2 ∈ state ∧ q.graph.isKind e.2 .fact = true ∧ e.1 = 0) := by
  obtain ⟨c, id⟩ := e
  simp only [starters, List.mem_append, List.mem_map, List.mem_filter, Bool.and_eq_true, bne_iff_ne,
    ne_eq, beq_iff_eq, Prod.mk.injEq, IdSet.mem_toList, or_assoc]
  refine or_congr ?_ (or_congr ?_ ?_)
  · constructor
    · rintro ⟨k, ⟨hk, ⟨hgoal, hall⟩, hw⟩, rfl, rfl⟩
      exact ⟨hk, hgoal, hall, hw, rfl⟩
    · rintro ⟨hk, hgoal, hall, hw, rfl⟩
      exact ⟨id, ⟨hk, ⟨hgoal, hall⟩, hw⟩, rfl, rfl⟩
  · split
    · rename_i hempty
      simp [List.isEmpty_iff.mp hempty]
    · rename_i hne
      simp only [List.not_mem_nil, false_iff, not_and]
      exact fun hnil => absurd (List.isEmpty_iff.mpr hnil) hne
  · constructor
    · rintro ⟨f, ⟨hf, hkind⟩, rfl, rfl⟩
      exact ⟨hf, hkind, rfl⟩
    · rintro ⟨hf, hkind, rfl⟩
      exact ⟨id, ⟨hf, hkind⟩, rfl, rfl⟩

theorem lt_size_of_isKind {kind : NodeKind} {id : Nat} (h : q.graph.isKind id kind = true) :
    id < q.graph.size := by
  refine Nat.lt_of_not_le fun hle => ?_
  rw [AndOrGraph.isKind, AndOrGraph.node?_eq_none hle] at h
  cases h

/-- No node is priced twice at the start. -/
theorem nodup_starters (hq : q.Sound) : ((starters q weights state).map (·.2)).Nodup := by
  have hgoal : q.needsAll q.goal = true := by simp [RelaxedGoal.needsAll]
  simp only [starters, List.map_append, List.map_map, Function.comp_def, List.map_id']
  refine List.nodup_append.mpr ⟨List.nodup_append.mpr ⟨?_, ?_, ?_⟩, ?_, ?_⟩
  · exact (List.nodup_range.filter _).filter _
  · split
    · exact List.nodup_cons.mpr ⟨List.not_mem_nil, List.nodup_nil⟩
    · exact List.nodup_nil
  · rintro a ha b hb rfl
    rw [List.mem_filter, Bool.and_eq_true, Bool.and_eq_true, bne_iff_ne] at ha
    split at hb
    · exact ha.2.1.1 (List.mem_singleton.mp hb)
    · exact List.not_mem_nil hb
  · exact (List.nodup_range.filter _).filter _
  · rintro a ha b hb rfl
    have hfact := hq.fact a (List.mem_filter.mp hb).2
    rcases List.mem_append.mp ha with ha | ha
    · rw [List.mem_filter, Bool.and_eq_true, Bool.and_eq_true] at ha
      rw [ha.2.1.2] at hfact
      cases hfact
    · split at ha
      · obtain rfl := List.mem_singleton.mp ha
        rw [hgoal] at hfact
        cases hfact
      · exact List.not_mem_nil ha

theorem lt_size_of_mem_starters (hq : q.Sound) {e : Nat × Nat} (he : e ∈ starters q weights state) :
    e.2 < q.graph.size := by
  rcases mem_starters.mp he with ⟨hin, -⟩ | ⟨-, rfl⟩ | ⟨-, hkind, -⟩
  · exact List.mem_range.mp (List.mem_filter.mp hin).1
  · exact hq.goal
  · exact lt_size_of_isKind hkind

/-- A node that needs all its feeders and is priced at the start has none. -/
theorem waits_of_mem_starters (hq : q.Sound) {e : Nat × Nat} (he : e ∈ starters q weights state)
    (hall : q.needsAll e.2 = true) : q.waits e.2 = 0 := by
  rcases mem_starters.mp he with ⟨-, -, -, hw, -⟩ | ⟨hnil, rfl⟩ | ⟨-, hkind, -⟩
  · exact hw
  · rw [RelaxedGoal.waits_eq hall, RelaxedGoal.feeders, if_pos rfl, hnil]
    rfl
  · rw [hq.fact _ hkind] at hall
    cases hall

/-- A node that needs all its feeders and has none is priced at the start. -/
theorem mem_starters_of_alone (hgoal : weights[q.goal]?.getD 0 = 0) {k : Nat} (hk : k < q.graph.size)
    (hall : q.needsAll k = true) (hnil : q.feeders k = []) :
    (weights[k]?.getD 0, k) ∈ starters q weights state := by
  by_cases hkg : k = q.goal
  · subst hkg
    rw [RelaxedGoal.feeders, if_pos rfl] at hnil
    rw [hgoal]
    exact mem_starters.mpr (.inr (.inl ⟨hnil, rfl⟩))
  · refine mem_starters.mpr (.inl ⟨?_, hkg, hall, ?_, rfl⟩)
    · refine List.mem_filter.mpr ⟨List.mem_range.mpr hk, ?_⟩
      cases hn : q.graph.node? k with
      | some n => rfl
      | none => simp [RelaxedGoal.needsAll, hn, hkg] at hall
    · rw [RelaxedGoal.waits_eq hall, hnil]
      rfl

/-- Costs as a pass finds them: the starters are priced and wait, nothing else has a cost. -/
structure Begun (q : RelaxedGoal) (weights : Array Nat) (state : IdSet) (r : RelaxedCosts) : Prop where
  cost_size : r.cost.size = q.graph.size
  supporter_size : r.supporter.size = q.graph.size
  waiting_size : r.waiting.size = q.graph.size
  done : r.done = .empty q.graph.size
  ordered : r.queue.Ordered cheaper
  queue : r.queue.toList.Perm (starters q weights state)
  waiting : ∀ k, k < q.graph.size → r.waitingOf k = q.waits k
  priced : ∀ e ∈ starters q weights state, r.costOf e.2 = e.1
  other : ∀ k, k ∉ (starters q weights state).map (·.2) → r.costOf k = costCap

theorem begun_start (hq : q.Sound) : Begun q weights state (start q weights state) := by
  obtain ⟨hcost, hsup, hwait, hdone, hord, hqueue, hpriced, hother⟩ :=
    priceAll_spec (fun e he => lt_size_of_mem_starters hq he) (nodup_starters hq) (r := blank q)
      Array.size_replicate trivial
  rw [← start_eq] at hcost hsup hwait hdone hord hqueue hpriced hother
  refine ⟨hcost, ?_, ?_, hdone, hord, hqueue.trans (.of_eq (List.append_nil _)), fun k hk => ?_, hpriced,
    fun k hk => ?_⟩
  · rw [hsup]
    exact Array.size_replicate
  · rw [hwait]
    simp [blank]
  · rw [waitingOf, hwait]
    simp [blank, hk]
  · rw [hother k hk, costOf, blank, Array.getElem?_replicate]
    split <;> rfl

namespace Begun

variable (h : Begun q weights state r)

include h

/-- Nothing is final. -/
theorem not_done (k : Nat) : k ∉ r.done := h.done ▸ IdSet.not_mem_empty

/-- A node that has a cost is among the starters. -/
theorem entry {k : Nat} (hk : r.costOf k < costCap) : (r.costOf k, k) ∈ starters q weights state := by
  by_cases hin : k ∈ (starters q weights state).map (·.2)
  · obtain ⟨e, he, rfl⟩ := List.mem_map.mp hin
    rw [h.priced e he]
    exact he
  · rw [h.other k hin] at hk
    exact absurd hk (Nat.lt_irrefl _)

theorem spent (hq : q.Sound) {e : Nat × Nat} (he : e ∈ starters q weights state) :
    e.1 ≤ spentWeight q weights r := by
  rcases mem_starters.mp he with ⟨-, -, hall, hw, he1⟩ | ⟨-, rfl⟩ | ⟨-, -, he1⟩
  · have hlt := lt_size_of_mem_starters hq he
    refine List.single_le_sum (fun x _ => Nat.zero_le x) _ (List.mem_map.mpr
      ⟨e.2, List.mem_range.mpr hlt, ?_⟩)
    rw [if_pos ⟨hall, (h.waiting _ hlt).trans hw⟩, he1]
  · exact Nat.zero_le _
  · exact he1.le.trans (Nat.zero_le _)

theorem lt_cap (hq : q.Sound) (htotal : q.totalWeight weights < costCap) {e : Nat × Nat}
    (he : e ∈ starters q weights state) : e.1 < costCap :=
  ((h.spent hq he).trans (spentWeight_le q weights r)).trans_lt htotal

theorem le_cap (hq : q.Sound) (htotal : q.totalWeight weights < costCap) (k : Nat) :
    r.costOf k ≤ costCap := by
  by_cases hin : k ∈ (starters q weights state).map (·.2)
  · obtain ⟨e, he, rfl⟩ := List.mem_map.mp hin
    rw [h.priced e he]
    exact (h.lt_cap hq htotal he).le
  · exact (h.other k hin).le

end Begun

/-- **The start keeps the invariant**, with nothing final. -/
theorem priced_start (hq : q.Sound) (htotal : q.totalWeight weights < costCap)
    (hgoal : weights[q.goal]?.getD 0 = 0) :
    Priced q weights state 0 0 [] (start q weights state) := by
  have h : Begun q weights state (start q weights state) := begun_start hq
  generalize start q weights state = r at h
  refine ⟨h.cost_size, h.supporter_size, h.waiting_size, h.done ▸ rfl, h.ordered, fun e he => ?_,
    fun k hk => .inr (h.queue.mem_iff.mpr (h.entry hk)), fun k hk => absurd hk (h.not_done k),
    fun k hk => h.spent hq (h.entry hk), h.le_cap hq htotal, fun k hall hk => ?_, fun k hall hw => ?_,
    fun k hall hk hw => ?_, fun k _ p _ hpd => absurd hpd (h.not_done p), fun k hor hk => ?_,
    fun f hf hkind => h.priced (0, f) (mem_starters.mpr (.inr (.inr ⟨hf, hkind, rfl⟩)))⟩
  · have hin := h.queue.mem_iff.mp he
    exact ⟨lt_size_of_mem_starters hq hin, (h.priced e hin).le, Nat.zero_le _, h.spent hq hin⟩
  · rw [h.waiting k hk, RelaxedGoal.waits_eq hall, List.count_nil, Nat.add_zero,
      List.countP_eq_length.mpr fun p _ => decide_eq_true (h.not_done p)]
  · refine h.other k fun hin => hw ?_
    obtain ⟨e, he, rfl⟩ := List.mem_map.mp hin
    rw [h.waiting _ (lt_size_of_mem_starters hq he)]
    exact waits_of_mem_starters hq he hall
  · rw [h.waiting k hk, RelaxedGoal.waits_eq hall, List.length_eq_zero_iff] at hw
    have hin : (weights[k]?.getD 0, k) ∈ starters q weights state :=
      mem_starters_of_alone hgoal hk hall hw
    have hprice : r.costOf k = weights[k]?.getD 0 := h.priced _ hin
    exact ⟨fun _ => hprice, fun hne => absurd hw hne, hprice.trans_lt (h.lt_cap hq htotal hin)⟩
  · rcases mem_starters.mp (h.entry hk) with ⟨-, -, hall, -⟩ | ⟨-, he⟩ | ⟨hf, hkind, -⟩
    · rw [hor] at hall
      cases hall
    · obtain ⟨-, rfl⟩ := Prod.mk.inj he
      simp [RelaxedGoal.needsAll] at hor
    · exact .inl ⟨hf, hkind⟩

/-- The bound on the queue is enough for a start. -/
theorem effort_start (hq : q.Sound) : effort q (start q weights state) ≤ q.queueBound := by
  have h : Begun q weights state (start q weights state) := begun_start hq
  have hsize : (start q weights state).queue.size ≤ q.graph.size := by
    have hsubset : (starters q weights state).map (·.2) ⊆ List.range q.graph.size := by
      intro k hk
      obtain ⟨e, he, rfl⟩ := List.mem_map.mp hk
      exact List.mem_range.mpr (lt_size_of_mem_starters hq he)
    have hlen := (List.subperm_of_subset (nodup_starters hq) hsubset).length_le
    rw [List.length_map, List.length_range] at hlen
    rw [← Heap.length_toList, h.queue.length_eq]
    exact hlen
  have harcs : ((List.range q.graph.size).map fun id =>
      if id ∈ (start q weights state).done then 0 else (q.targets id).length).sum =
      (List.range q.graph.size).foldl (fun arcs id => arcs + (q.targets id).length) 0 := by
    simp only [h.not_done, if_false]
    rw [List.sum_eq_foldl, List.foldl_map]
  unfold effort RelaxedGoal.queueBound
  rw [harcs]
  omega

end Start

/-! ## The end -/

/-- Costs that solve the equations of a goal. -/
structure Solved (q : RelaxedGoal) (weights : Array Nat) (state : IdSet) (r : RelaxedCosts) : Prop where
  le_cap : ∀ id, r.costOf id ≤ costCap
  /-- What has a cost costs no more than all weights together. -/
  le_total : ∀ id, r.costOf id < costCap → r.costOf id ≤ q.totalWeight weights
  facts : ∀ f ∈ state, q.graph.isKind f .fact = true → r.costOf f = 0
  least : ∀ id, q.needsAll id = false → ∀ p ∈ q.feeders id, r.costOf id ≤ r.costOf p
  attained : ∀ id, q.needsAll id = false → r.costOf id < costCap →
    (id ∈ state ∧ q.graph.isKind id .fact = true) ∨ ∃ p ∈ q.feeders id, r.costOf id = r.costOf p
  unpriced : ∀ id, q.needsAll id = true → ∀ p ∈ q.feeders id, r.costOf p = costCap →
    r.costOf id = costCap
  alone : ∀ id, q.needsAll id = true → id < q.graph.size → q.feeders id = [] →
    r.costOf id = weights[id]?.getD 0
  supported : ∀ id, q.needsAll id = true → q.feeders id ≠ [] →
    (∀ p ∈ q.feeders id, r.costOf p < costCap) → ∃ p ∈ q.feeders id, r.supporterOf id = some p ∧
      r.costOf id = weights[id]?.getD 0 + r.costOf p ∧ ∀ p' ∈ q.feeders id, r.costOf p' ≤ r.costOf p
  below : ∀ id, q.needsAll id = true → id < q.graph.size →
    (∀ p ∈ q.feeders id, r.costOf p < costCap) → r.costOf id < costCap

/-- With an empty queue the costs solve the equations. -/
theorem Priced.solved (hq : q.Sound) {floor current : Nat}
    (h : Priced q weights state floor current [] r) (hempty : r.queue.toList = []) :
    Solved q weights state r := by
  have hfinal : ∀ k, r.costOf k < costCap ↔ k ∈ r.done := fun k =>
    ⟨fun hk => (h.waits k hk).resolve_right fun hin => List.not_mem_nil (hempty ▸ hin),
      fun hk => (h.final k hk).2⟩
  have hwaiting : ∀ id, q.needsAll id = true → id < q.graph.size →
      (r.waitingOf id = 0 ↔ ∀ p ∈ q.feeders id, p ∈ r.done) := by
    intro id hall hid
    rw [h.counts id hall hid, List.count_nil, Nat.add_zero, List.countP_eq_zero]
    simp
  refine ⟨h.le_cap, fun id hid => (h.spent id hid).trans (spentWeight_le q weights r), h.facts,
    fun id hor p hp => ?_, fun id hor hid => ?_, fun id hall p hp hcap => ?_,
    fun id hall hid hnil => ?_, fun id hall hne hcost => ?_, fun id hall hid hcost => ?_⟩
  · by_cases hpd : p ∈ r.done
    · exact (h.least id hor p hp hpd).resolve_left fun hin => List.not_mem_nil hin.2
    · have hcap := Nat.le_of_not_lt fun hlt => hpd ((hfinal p).mp hlt)
      exact (h.le_cap id).trans hcap
  · refine (h.attained id hor hid).imp_right ?_
    rintro ⟨p, hp, -, he⟩
    exact ⟨p, hp, he⟩
  · refine h.unpriced id hall fun hw => ?_
    have hpd := (hwaiting id hall (lt_size_of_feeders hq hp)).mp hw p hp
    exact absurd hcap ((hfinal p).mpr hpd).ne
  · refine (h.settles id hall hid ?_).alone hnil
    rw [hwaiting id hall hid, hnil]
    exact fun p hp => absurd hp List.not_mem_nil
  · obtain ⟨p₀, hp₀⟩ := List.exists_mem_of_ne_nil _ hne
    have hid := lt_size_of_feeders hq hp₀
    have hw := (hwaiting id hall hid).mpr fun p hp => (hfinal p).mp (hcost p hp)
    obtain ⟨p, hp, hsup, -, hsum, hmax⟩ := (h.settles id hall hid hw).supported hne
    exact ⟨p, hp, hsup, hsum, hmax⟩
  · exact (h.settles id hall hid
      ((hwaiting id hall hid).mpr fun p hp => (hfinal p).mp (hcost p hp))).below

end RelaxedCosts

end HierPlan
