import HierPlan.Proofs.Queue.Heap
import HierPlan.Proofs.Search.Coverage

/-!
# Proofs/Search/Ranking — the node taken next is ranked first

    entry of the frontier  ──position──▸  node of the arena  ──rank──▸  the same entry

A ranked frontier is an ordered heap whose entries are the ranks of the nodes they stand for
(`Run.Ranks`).  Marks are no part of a rank, so every step keeps this (`Search.ranks_step`) and **no node
that waits is ranked before the one taken** (`Run.Ranks.first`).  All that is asked of the scale is that
its order for queues is one.
-/

namespace HierPlan

universe u

/-- A lawful comparison is a strict order. -/
theorem StrictOrder.of_transCmp {β : Type u} (cmp : β → β → Ordering) [Std.TransCmp cmp] :
    StrictOrder fun a b => cmp a b == .lt where
  asymm a b hab := by
    rw [beq_iff_eq] at hab
    rw [beq_eq_false_iff_ne]
    exact Std.OrientedCmp.not_lt_of_lt hab
  pass a b c hab hbc := by
    have hle : ∀ {a b : β}, cmp a b ≠ .lt → (cmp b a).isLE := fun h =>
      Classical.byContradiction fun hn => h (Std.OrientedCmp.lt_of_not_isLE hn)
    rw [beq_eq_false_iff_ne] at hab hbc ⊢
    exact Std.OrientedCmp.not_lt_of_isLE (Std.TransCmp.isLE_trans (hle hbc) (hle hab))

variable {α : Type} [Scale α]

section Order

variable [Std.TransCmp (Scale.compare : α → α → Ordering)]

instance transCmp_primary : Std.TransCmp fun a b : Ranked α => Scale.compare a.primary b.primary where
  eq_swap := Std.OrientedCmp.eq_swap
  isLE_trans := Std.TransCmp.isLE_trans

instance transCmp_secondary : Std.TransCmp fun a b : Ranked α => Scale.compare a.secondary b.secondary where
  eq_swap := Std.OrientedCmp.eq_swap
  isLE_trans := Std.TransCmp.isLE_trans

instance transCmp_compare : Std.TransCmp (Ranked.compare : Ranked α → Ranked α → Ordering) :=
  inferInstanceAs (Std.TransCmp (compareLex (compareLex
    (fun a b : Ranked α => Scale.compare a.primary b.primary)
    (fun a b : Ranked α => Scale.compare a.secondary b.secondary)) (compareOn Ranked.sequence)))

theorem Ranked.strictOrder : StrictOrder (Ranked.before : Ranked α → Ranked α → Bool) :=
  .of_transCmp Ranked.compare

end Order

/-! ## Frontiers -/

/-- A frontier that ranks its nodes: an ordered heap of their ranks. -/
def Frontier.Ranks (r : Ranking) (nodes : Array (Node α)) (q : Frontier α) : Prop :=
  ∃ heap, q = .ranked r heap ∧ heap.Ordered Ranked.before ∧
    ∀ z ∈ heap.toList, ∃ n, nodes[z.position]? = some n ∧ z = Frontier.rank r z.position n

namespace Frontier

variable {r : Ranking} {nodes : Array (Node α)} {q next : Frontier α} {i k : Nat} {n p : Node α}

/-- Marks are no part of a rank. -/
theorem rank_marks (r : Ranking) (i : Nat) (n : Node α) (marks : Option Marks) :
    rank r i { n with marks } = rank r i n := by
  cases r <;> rfl

theorem Ranks.mono {nodes' : Array (Node α)} (h : q.Ranks r nodes)
    (hext : ∀ (k : Nat) (n : Node α), nodes[k]? = some n → ∃ marks, nodes'[k]? = some { n with marks }) :
    q.Ranks r nodes' := by
  obtain ⟨heap, rfl, hordered, hentries⟩ := h
  refine ⟨heap, rfl, hordered, fun z hz => ?_⟩
  obtain ⟨n, hn, hrank⟩ := hentries z hz
  obtain ⟨marks, hn'⟩ := hext _ n hn
  exact ⟨_, hn', by rwa [rank_marks]⟩

theorem Ranks.empty : (Frontier.ranked r .empty).Ranks r nodes :=
  ⟨.empty, rfl, trivial, fun _ hz => absurd hz List.not_mem_nil⟩

section Order

variable [Std.TransCmp (Scale.compare : α → α → Ordering)]

/-- **A node put into arena and frontier is ranked.** -/
theorem Ranks.push (h : q.Ranks r nodes) (n : Node α) (novel : Bool) :
    (q.push nodes.size n novel).Ranks r (nodes.push n) := by
  obtain ⟨heap, rfl, hordered, hentries⟩ := h
  refine ⟨_, rfl, hordered.push Ranked.strictOrder _, fun z hz => ?_⟩
  rw [(Heap.toList_push Ranked.before heap _).mem_iff, List.mem_cons] at hz
  rcases hz with rfl | hz
  · rw [position_rank]
    exact ⟨n, Array.getElem?_push_size, rfl⟩
  · obtain ⟨p, hp, hrank⟩ := hentries z hz
    exact ⟨p, Arena.getElem?_push_of_some hp, hrank⟩

/-- What is left when a node is taken is ranked. -/
theorem Ranks.of_pop? (h : q.Ranks r nodes) (hpop : q.pop? = some (i, next)) : next.Ranks r nodes := by
  obtain ⟨heap, rfl, hordered, hentries⟩ := h
  obtain ⟨⟨x, rest⟩, hx, he⟩ := Option.map_eq_some_iff.mp hpop
  cases he
  refine ⟨rest, rfl, (hordered.of_pop? Ranked.strictOrder hx).1, fun z hz => hentries z ?_⟩
  rw [(Heap.toList_of_pop? hx).mem_iff]
  exact List.mem_cons_of_mem x hz

/-- **The node taken is ranked first** among all that wait. -/
theorem Ranks.first (h : q.Ranks r nodes) (hpop : q.pop? = some (i, next)) (hn : nodes[i]? = some n)
    (hk : k ∈ q.toList) (hp : nodes[k]? = some p) : (rank r k p).before (rank r i n) = false := by
  obtain ⟨heap, rfl, hordered, hentries⟩ := h
  obtain ⟨⟨x, rest⟩, hx, he⟩ := Option.map_eq_some_iff.mp hpop
  cases he
  have hperm := Heap.toList_of_pop? hx
  have hentry : ∀ z ∈ heap.toList, ∀ m, nodes[z.position]? = some m → z = rank r z.position m := by
    intro z hz m hm
    obtain ⟨m', hm', hrank⟩ := hentries z hz
    obtain rfl := Option.some.inj (hm'.symm.trans hm)
    exact hrank
  obtain ⟨y, hy, rfl⟩ := List.mem_map.mp hk
  rw [← hentry x (hperm.mem_iff.mpr List.mem_cons_self) n hn, ← hentry y hy p hp]
  rw [hperm.mem_iff, List.mem_cons] at hy
  rcases hy with rfl | hy
  · exact Ranked.strictOrder.irrefl y
  · exact (hordered.of_pop? Ranked.strictOrder hx).2 y hy

end Order

end Frontier

/-! ## Runs keep it -/

section Runs

variable [Std.TransCmp (Scale.compare : α → α → Ordering)] {x : Search} {mon : Monitor} {r : Ranking}
  {s s' : Run α}

/-- The frontier ranks the nodes of the run. -/
def Run.Ranks (r : Ranking) (s : Run α) : Prop := s.frontier.Ranks r s.nodes

/-- Moves that are offered keep the frontier ranked. -/
theorem Run.Ranks.offered {i : Nat} {n : Node α} {v : Move} (h : s.Ranks r) (ho : s.Offered x i n v s') :
    s'.Ranks r := by
  cases ho with
  | revisit => exact h
  | new _ estimated =>
    cases estimated with
    | deadEnd => simpa [Run.Ranks] using h
    | kept =>
      simp only [Run.Ranks, nodes_remember, frontier_remember]
      exact Frontier.Ranks.push h _ _

namespace Search

/-- A search whose frontier ranks begins so. -/
theorem ranks_start {h : Heuristic α} (hkind : (Frontier.empty x.options.kind : Frontier α) = .ranked r .empty) :
    (x.start h).Ranks r := by
  generalize hs : x.start h = s
  have started := start_cases x h
  rw [hs] at started
  cases started with
  | deadEnd _ nodes frontier =>
    rw [Run.Ranks, frontier, hkind]
    exact .empty
  | @kept n novel _ _ nodes frontier =>
    have hempty : (Frontier.ranked r .empty).Ranks r (#[] : Array (Node α)) := .empty
    rw [Run.Ranks, nodes, frontier, hkind]
    exact hempty.push n novel

/-- **Every step keeps the frontier ranked.** -/
theorem ranks_step (hs : s.Ranks r) (h : x.step mon s = .running s') : s'.Ranks r := by
  obtain ⟨i, q, hpop, ⟨-, rfl⟩ | ⟨n, readings, -, -, rfl⟩⟩ := running_of_step h
  · exact Frontier.Ranks.of_pop? hs hpop
  · have hoffered : (({ s with frontier := q, readings } : Run α).offered x i n).Ranks r :=
      Run.offers_induction (P := fun t : Run α => t.Ranks r) (fun t v t' _ ht ho => ht.offered ho)
        (Frontier.Ranks.of_pop? hs hpop)
    rw [Run.expand_eq]
    exact Frontier.Ranks.mono hoffered fun k p hp => exists_forgetMarks hp

end Search

end Runs

end HierPlan
