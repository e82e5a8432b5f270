import HierPlan.Execution
import HierPlan.Proofs.Search.Loop

/-!
# Proofs/Search/Arena — every node is one move from its parent

    root ──▸ … ──▸ parent ──move──▸ node          position of the parent < position of the node

`Arena` says this of all nodes of a search, together with what a node records: costs and depth
add up along the way, the position counts the nodes before, estimates are finite.  Every run keeps it
(`Search.grown_start`, `Search.grown_step`), so **a node is reached by the transitions read off its
ancestors, at the cost it records** (`Arena.walk`).
-/

namespace HierPlan

variable {α : Type} [Scale α] {m : Model}

/-! ## What a node records -/

namespace Node

/-- A node as a search begins with it. -/
structure IsRoot (m : Model) (n : Node α) : Prop where
  situation : n.situation = m.start
  parent : n.parent = none
  transition : n.transition = none
  g : n.g = 0
  depth : n.depth = 0
  f : n.f = n.h

/-- A node one move away from the node `q` at position `p`. -/
structure IsChild (n : Node α) (p : Nat) (q : Node α) (v : Move) : Prop where
  parent : n.parent = some p
  situation : n.situation = v.next
  transition : n.transition = some v.transition
  g : n.g = q.g + v.cost
  depth : n.depth = q.depth + 1
  f : n.f = Scale.add (Scale.ofNat n.g) n.h

omit [Scale α] in
theorem isRoot_root (e : Estimate α) : (root m.start e).IsRoot m :=
  ⟨rfl, rfl, rfl, rfl, rfl, rfl⟩

theorem isChild_child (n : Node α) (i : Nat) (v : Move) (e : Estimate α) (sequence : Nat) :
    (n.child i v e sequence).IsChild i n v :=
  ⟨rfl, rfl, rfl, rfl, rfl, rfl⟩

end Node

/-- What holds of all nodes of a search. -/
structure Arena (m : Model) (nodes : Array (Node α)) : Prop where
  /-- The root is first, and any other node is one move from an earlier one. -/
  reached : ∀ (k : Nat) (n : Node α), nodes[k]? = some n → (k = 0 ∧ n.IsRoot m) ∨
    ∃ (p : Nat) (q : Node α) (v : Move), p < k ∧ nodes[p]? = some q ∧ v ∈ q.situation.moves m ∧ n.IsChild p q v
  /-- Nodes are numbered as they are generated. -/
  sequence : ∀ (k : Nat) (n : Node α), nodes[k]? = some n → n.sequence = k
  /-- Dead ends are left out. -/
  finite : ∀ (k : Nat) (n : Node α), nodes[k]? = some n → Scale.isFinite n.h = true

omit [Scale α] in
/-- Letting marks go changes nothing else. -/
theorem getElem?_forgetMarks (nodes : Array (Node α)) (i k : Nat) :
    (forgetMarks nodes i)[k]? =
      (nodes[k]?).map fun n => if i = k then { n with marks := none } else n := by
  unfold forgetMarks
  rw [Array.getElem?_modify]
  split
  · rename_i h
    rfl
  · rename_i h
    exact Option.map_id'.symm

omit [Scale α] in
/-- A node after marks were let go is a node from before but for its marks. -/
theorem exists_of_forgetMarks {nodes : Array (Node α)} {i k : Nat} {n : Node α}
    (h : (forgetMarks nodes i)[k]? = some n) :
    ∃ q, nodes[k]? = some q ∧ ∃ marks, n = { q with marks } := by
  rw [getElem?_forgetMarks, Option.map_eq_some_iff] at h
  obtain ⟨q, hq, rfl⟩ := h
  split
  · exact ⟨q, hq, none, rfl⟩
  · exact ⟨q, hq, q.marks, rfl⟩

omit [Scale α] in
/-- A node from before is still there when marks were let go. -/
theorem exists_forgetMarks {nodes : Array (Node α)} {i k : Nat} {q : Node α}
    (h : nodes[k]? = some q) : ∃ marks, (forgetMarks nodes i)[k]? = some { q with marks } := by
  rw [getElem?_forgetMarks, h]
  by_cases hi : i = k
  · exact ⟨none, by rw [Option.map_some, if_pos hi]⟩
  · exact ⟨q.marks, by rw [Option.map_some, if_neg hi]⟩

omit [Scale α] in
@[simp] theorem size_forgetMarks (nodes : Array (Node α)) (i : Nat) :
    (forgetMarks nodes i).size = nodes.size := Array.size_modify

namespace Arena

variable {nodes : Array (Node α)}

/-- Before the root. -/
theorem empty : Arena m (#[] : Array (Node α)) :=
  ⟨fun _ _ h => by simp at h, fun _ _ h => by simp at h, fun _ _ h => by simp at h⟩

omit [Scale α] in
/-- A node at the end of an arena is new, any other was there before. -/
theorem getElem?_push_cases {c n : Node α} {k : Nat} (h : (nodes.push c)[k]? = some n) :
    (k < nodes.size ∧ nodes[k]? = some n) ∨ (k = nodes.size ∧ n = c) := by
  rw [Array.getElem?_push] at h
  split at h
  · exact Or.inr ⟨‹_›, (Option.some.inj h).symm⟩
  · obtain ⟨hk, _⟩ := Array.getElem?_eq_some_iff.mp h
    exact Or.inl ⟨hk, h⟩

omit [Scale α] in
/-- A node that was there before is still there after a push. -/
theorem getElem?_push_of_some {c n : Node α} {k : Nat} (h : nodes[k]? = some n) :
    (nodes.push c)[k]? = some n := by
  obtain ⟨hk, rfl⟩ := Array.getElem?_eq_some_iff.mp h
  rw [Array.getElem?_push_lt hk]

omit [Scale α] in
/-- A single node stands first. -/
theorem getElem?_singleton {c n : Node α} {k : Nat} (h : (#[c] : Array (Node α))[k]? = some n) :
    k = 0 ∧ n = c := by
  have hpush : ((#[] : Array (Node α)).push c)[k]? = some n := h
  rcases getElem?_push_cases hpush with ⟨hk, _⟩ | hk
  · exact absurd hk (Nat.not_lt_zero _)
  · exact hk

/-- The root alone. -/
theorem root {c : Node α} (h : c.IsRoot m) (hs : c.sequence = 0)
    (hf : Scale.isFinite c.h = true) : Arena m #[c] := by
  refine ⟨fun k n hn => ?_, fun k n hn => ?_, fun k n hn => ?_⟩ <;> obtain ⟨rfl, rfl⟩ := getElem?_singleton hn
  · exact Or.inl ⟨rfl, h⟩
  · exact hs
  · exact hf

/-- **A node one move away from an old one may join.** -/
theorem push (h : Arena m nodes) {c q : Node α} {p : Nat} {v : Move} (hq : nodes[p]? = some q)
    (hv : v ∈ q.situation.moves m) (hc : c.IsChild p q v) (hs : c.sequence = nodes.size)
    (hf : Scale.isFinite c.h = true) : Arena m (nodes.push c) := by
  refine ⟨fun k n hn => ?_, fun k n hn => ?_, fun k n hn => ?_⟩ <;>
    rcases getElem?_push_cases hn with ⟨hk, hn⟩ | ⟨rfl, rfl⟩
  · rcases h.reached k n hn with hr | ⟨p', q', v', hp, hq', hv', hc'⟩
    · exact Or.inl hr
    · exact Or.inr ⟨p', q', v', hp, getElem?_push_of_some hq', hv', hc'⟩
  · obtain ⟨hp, _⟩ := Array.getElem?_eq_some_iff.mp hq
    exact Or.inr ⟨p, q, v, hp, getElem?_push_of_some hq, hv, hc⟩
  · exact h.sequence k n hn
  · exact hs
  · exact h.finite k n hn
  · exact hf

/-- Marks do not matter. -/
theorem forgetMarks (h : Arena m nodes) (i : Nat) : Arena m (forgetMarks nodes i) := by
  refine ⟨fun k n hn => ?_, fun k n hn => ?_, fun k n hn => ?_⟩ <;>
    obtain ⟨n₀, hn₀, marks, rfl⟩ := exists_of_forgetMarks hn
  · rcases h.reached k n₀ hn₀ with ⟨hk, hr⟩ | ⟨p, q, v, hp, hq, hv, hc⟩
    · exact Or.inl ⟨hk, hr.situation, hr.parent, hr.transition, hr.g, hr.depth, hr.f⟩
    · obtain ⟨marks', hq'⟩ := exists_forgetMarks (i := i) hq
      exact Or.inr ⟨p, _, v, hp, hq', hv, hc.parent, hc.situation, hc.transition, hc.g, hc.depth,
        hc.f⟩
  · exact h.sequence k n₀ hn₀
  · exact h.finite k n₀ hn₀

end Arena

/-! ## Runs keep it -/

/-- An arena with as many nodes as were generated, and the root. -/
structure Run.Grown (m : Model) (s : Run α) : Prop where
  arena : Arena m s.nodes
  count : 0 < s.nodes.size → s.nodes.size = s.generated + 1

/-- A kept move adds its node. -/
theorem Run.Grown.offered {s s' : Run α} {x : Search} {i : Nat} {n : Node α} {v : Move}
    (h : s.Grown x.model ∧ s.nodes[i]? = some n) (hv : v ∈ n.situation.moves x.model)
    (ho : s.Offered x i n v s') : s'.Grown x.model ∧ s'.nodes[i]? = some n := by
  obtain ⟨hs, hn⟩ := h
  obtain ⟨hi, _⟩ := Array.getElem?_eq_some_iff.mp hn
  have hcount := hs.count (Nat.zero_lt_of_lt hi)
  cases ho with
  | revisit => exact ⟨⟨hs.arena, hs.count⟩, hn⟩
  | new _ he =>
    cases he with
    | deadEnd =>
      refine ⟨⟨?_, ?_⟩, ?_⟩
      · simpa using hs.arena
      · simpa using hs.count
      · simpa using hn
    | kept finite child =>
      simp only [nodes_remember, generated_remember] at child ⊢
      refine ⟨⟨?_, fun _ => ?_⟩, Arena.getElem?_push_of_some hn⟩
      · refine hs.arena.push hn hv (child ▸ Node.isChild_child ..) ?_ ?_
        · rw [child, hcount]
          rfl
        · rw [child]
          exact finite
      · rw [Array.size_push, hcount]

namespace Search

variable {x : Search} {mon : Monitor} {s s' : Run α}

/-- What a search begins with: nothing if the root is a dead end, and the root otherwise. -/
inductive Started (x : Search) (h : Heuristic α) : Run α → Prop where
  /-- The root is a dead end. -/
  | deadEnd {s : Run α}
      (infinite : Scale.isFinite (h.atRoot x.model x.model.start).1.value = false)
      (nodes : s.nodes = #[]) (frontier : s.frontier = .empty x.options.kind)
      (heuristic : s.heuristic = (h.atRoot x.model x.model.start).2.release)
      (closed : s.closed = {}) : Started x h s
  /-- The root waits alone. -/
  | kept {s : Run α} {n : Node α} {novel : Bool}
      (finite : Scale.isFinite (h.atRoot x.model x.model.start).1.value = true)
      (root : n = Node.root x.model.start (h.atRoot x.model x.model.start).1)
      (nodes : s.nodes = #[n]) (frontier : s.frontier = (Frontier.empty x.options.kind).push 0 n novel)
      (heuristic : s.heuristic = (h.atRoot x.model x.model.start).2.release)
      (generated : s.generated = 0)
      (closed : s.closed = match x.key? x.model.start with
        | none => {}
        | some k => Std.HashMap.insert {} k 0) : Started x h s

theorem start_cases (x : Search) (h : Heuristic α) : Started x h (x.start h) := by
  unfold start
  dsimp only
  split
  · rename_i hf
    unfold Run.keep Run.note Run.remember
    cases hk : x.key? x.model.start with
    | none =>
      dsimp only
      split <;> exact .kept hf rfl rfl rfl rfl rfl (by rw [hk])
    | some k =>
      dsimp only
      split <;> exact .kept hf rfl rfl rfl rfl rfl (by rw [hk])
  · rename_i hf
    exact .deadEnd (Bool.eq_false_iff.mpr hf) rfl rfl rfl rfl

/-- **A search begins with an arena.** -/
theorem grown_start (x : Search) (h : Heuristic α) : (x.start h).Grown x.model := by
  cases start_cases x h with
  | deadEnd _ nodes =>
    refine ⟨nodes ▸ Arena.empty, fun hpos => ?_⟩
    rw [nodes] at hpos
    exact absurd hpos (Nat.lt_irrefl 0)
  | kept finite root nodes _ _ generated =>
    subst root
    refine ⟨nodes ▸ Arena.root (Node.isRoot_root _) rfl finite, fun _ => ?_⟩
    rw [nodes, generated]
    rfl

/-- **Every step keeps it.** -/
theorem grown_step (hs : s.Grown x.model) (h : x.step mon s = .running s') :
    s'.Grown x.model := by
  obtain ⟨i, q, -, ⟨-, rfl⟩ | ⟨n, readings, hn, -, rfl⟩⟩ := running_of_step h
  · exact ⟨hs.arena, hs.count⟩
  · have grown := (Run.offers_induction (P := fun r : Run α => r.Grown x.model ∧ r.nodes[i]? = some n)
      (fun r v r' hv hr ho => Run.Grown.offered hr hv ho)
      (s := ({ s with frontier := q, readings } : Run α).opened n) ⟨⟨hs.arena, hs.count⟩, hn⟩).1
    rw [Run.expand_eq]
    refine ⟨grown.arena.forgetMarks i, fun hpos => ?_⟩
    rw [size_forgetMarks] at hpos ⊢
    exact grown.count hpos

/-- **A search passes through arenas only.** -/
theorem grown_of_reaches {h : Heuristic α} {r : Run α} (hr : x.Reaches mon (x.start h) r) :
    r.Grown x.model :=
  hr.keeps (fun _ _ hs hstep => grown_step hs hstep) (grown_start x h)

end Search

/-! ## Plans -/

/-- A walk goes on where another ends. -/
theorem Walk.append {a b c : Situation} {p q : List Nat} (h : Walk m a p b) (k : Walk m b q c) :
    Walk m a (p ++ q) c := by
  induction h with
  | stay => exact k
  | step first _ ih =>
    rw [List.append_assoc]
    exact .step first (ih k)

/-- One more move at the end of a walk. -/
theorem Walk.snoc {a b : Situation} {p : List Nat} {v : Move} (h : Walk m a p b)
    (last : v ∈ b.moves m) : Walk m a (p ++ v.transition.applied) v.next := by
  have one : Walk m b (v.transition.applied ++ []) v.next := .step last .stay
  rw [List.append_nil] at one
  exact h.append one

/-- A move costs what its operators cost. -/
theorem Model.planCost_applied {a : Situation} {v : Move} (hv : v ∈ a.moves m) :
    m.planCost v.transition.applied = v.cost := by
  obtain ⟨state, network⟩ := a
  match network, hv with
  | [], hv => exact absurd hv List.not_mem_nil
  | .operator i :: rest, hv =>
    obtain ⟨o, known, -, rfl⟩ := Situation.mem_moves_operator.mp hv
    simp [Transition.applied, planCost, operatorCost, known]
  | .compound a :: rest, hv =>
    obtain ⟨y, -, d, -, z, -, -, rfl⟩ := Situation.mem_moves_compound.mp hv
    rfl

omit [Scale α] in
/-- What is read off last comes last. -/
theorem transitionsTo_eq_append (nodes : Array (Node α)) (i : Nat) (after : List Transition) :
    transitionsTo nodes i after = transitionsTo nodes i [] ++ after := by
  induction i using Nat.strongRecOn generalizing after with
  | ind i ih =>
    rw [transitionsTo, transitionsTo.eq_def nodes i []]
    cases nodes[i]? with
    | none => rfl
    | some n =>
      dsimp only
      cases n.parent with
      | none => simp
      | some p =>
        dsimp only
        by_cases hp : p < i
        · rw [if_pos hp, if_pos hp, ih p hp, ih p hp (_ ++ []), List.append_nil,
            List.append_assoc]
        · rw [if_neg hp, if_neg hp, List.append_nil]

theorem filterMap_operator?_toList (v : Transition) :
    [v].filterMap Transition.operator? = v.applied := by
  cases v <;> rfl

namespace Arena

variable {nodes : Array (Node α)}

omit [Scale α] in
/-- The plan to the root is empty. -/
theorem planTo_root {n : Node α} (hn : nodes[0]? = some n) (hr : n.IsRoot m) :
    planTo nodes 0 = [] := by
  rw [planTo, transitionsTo, hn]
  simp [hr.parent, hr.transition]

omit [Scale α] in
/-- What led to the parent of a child led to the child, and then its own transition. -/
theorem transitionsTo_child {n : Node α} {k p : Nat} {u : Transition} (hn : nodes[k]? = some n) (hp : p < k)
    (hparent : n.parent = some p) (htransition : n.transition = some u) :
    transitionsTo nodes k [] = transitionsTo nodes p [] ++ [u] := by
  rw [transitionsTo, hn]
  simp only [hparent, if_pos hp, htransition, List.append_nil, Option.toList_some]
  rw [transitionsTo_eq_append]

/-- The plan to a child goes on from the plan to its parent. -/
theorem planTo_child {n q : Node α} {k p : Nat} {v : Move} (hn : nodes[k]? = some n) (hp : p < k)
    (hc : n.IsChild p q v) : planTo nodes k = planTo nodes p ++ v.transition.applied := by
  rw [planTo, transitionsTo_child hn hp hc.parent hc.transition, List.filterMap_append,
    filterMap_operator?_toList, planTo]

/-- **A node is reached by the plan read off its ancestors, at the cost it records.** -/
theorem walk (h : Arena m nodes) {k : Nat} {n : Node α} (hn : nodes[k]? = some n) :
    Walk m m.start (planTo nodes k) n.situation ∧ m.planCost (planTo nodes k) = n.g := by
  induction k using Nat.strongRecOn generalizing n with
  | ind k ih =>
    rcases h.reached k n hn with ⟨rfl, hr⟩ | ⟨p, q, v, hp, hq, hv, hc⟩
    · rw [planTo_root hn hr, hr.situation, hr.g]
      exact ⟨.stay, rfl⟩
    · obtain ⟨hw, hcost⟩ := ih p hp hq
      rw [planTo_child hn hp hc, hc.situation, hc.g, Model.planCost_append, hcost,
        Model.planCost_applied hv]
      exact ⟨hw.snoc hv, rfl⟩

end Arena

end HierPlan
