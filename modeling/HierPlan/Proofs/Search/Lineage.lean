import HierPlan.Proofs.Search.Soundness

/-!
# Proofs/Search/Lineage — at every moment of a search every node knows where it comes from

    take a node ──▸ open it ──▸ offer a move ──▸ offer a move ──▸ … ──▸ let its marks go ──▸ take a node
               ·           ·                ·                ·                          ·

What `Arena` says holds between turns, and at every dot of a turn as well (`Search.Passes`).  A move either changes
nothing of it or one child joins, whose number is the next (`Run.offer_joins`): **nodes and announcements are
numbered without gaps** (`Run.Numbered`).  Parents stand before their children, so **a walk along parents ends, at the
root, and what is read off it is what the node records** (`Arena.exists_ascent`).
-/

namespace HierPlan

variable {α : Type} [Scale α]

/-! ## What was announced -/

/-- The number of the node that is generated. -/
def Event.generated? : Event α → Option Nat
  | .generate sequence .. => some sequence
  | _ => none

namespace Run

/-- The numbers of the nodes that were seen to be generated, in order. -/
def generations (s : Run α) : List Nat := s.trace.reverse.filterMap Event.generated?

omit [Scale α] in
/-- What is no announcement adds no number. -/
theorem generations_see {s : Run α} {e : Event α} (he : e.generated? = none) :
    (s.see e).generations = s.generations := by
  rw [generations, see, List.reverse_cons, List.filterMap_append, List.filterMap_cons, he]
  exact List.append_nil _

omit [Scale α] in
theorem generations_remember (s : Run α) (key : Option UInt64) (g : Nat) :
    (s.remember key g).generations = s.generations := by
  rw [generations, trace_remember, generations]

omit [Scale α] in
theorem novelty_remember (s : Run α) (key : Option UInt64) (g : Nat) : (s.remember key g).novelty = s.novelty := by
  cases key <;> rfl

/-! ## One move -/

/-- Nothing of nodes and frontier is changed, and nothing is announced. -/
structure Same (s s' : Run α) : Prop where
  nodes : s'.nodes = s.nodes
  frontier : s'.frontier = s.frontier
  novelty : s'.novelty = s.novelty
  generated : s'.generated = s.generated
  generations : s'.generations = s.generations

/-- One child of the node `n` at position `i` joins nodes and frontier, and is announced. -/
structure Joins (s : Run α) (x : Search) (i : Nat) (n : Node α) (v : Move) (c : Node α) (s' : Run α) : Prop where
  child : c.IsChild i n v
  sequence : c.sequence = s.generated + 1
  finite : Scale.isFinite c.h = true
  nodes : s'.nodes = s.nodes.push c
  frontier : s'.frontier =
    s.frontier.push s.nodes.size c (x.options.novelty && s.novelty.isNew c.situation)
  novelty : s'.novelty = if x.options.novelty then s.novelty.note c.situation else s.novelty
  generated : s'.generated = s.generated + 1
  generations : s'.generations = s.generations ++ [c.sequence]

/-- What is announced and kept joins. -/
theorem joins_keep (s : Run α) (x : Search) (i : Nat) (n : Node α) (v : Move) (e : Estimate α)
    (hf : Scale.isFinite e.value = true) :
    s.Joins x i n v (n.child i v e (s.generated + 1))
      ((s.announced (n.child i v e (s.generated + 1)) v.transition).keep x (n.child i v e (s.generated + 1))) where
  child := Node.isChild_child ..
  sequence := rfl
  finite := hf
  nodes := nodes_keep ..
  frontier := by
    rw [keep_eq]
    rfl
  novelty := by
    rw [keep_eq, note]
    split <;> rfl
  generated := generated_keep ..
  generations := by
    rw [generations, trace_keep, announced, see, List.reverse_cons, List.filterMap_append]
    rfl

/-- What joins where nothing was changed before joins. -/
theorem Same.joins {s r s' : Run α} {x : Search} {i : Nat} {n c : Node α} {v : Move} (hsame : s.Same r)
    (h : r.Joins x i n v c s') : s.Joins x i n v c s' where
  child := h.child
  sequence := hsame.generated ▸ h.sequence
  finite := h.finite
  nodes := hsame.nodes ▸ h.nodes
  frontier := by
    rw [← hsame.frontier, ← hsame.nodes, ← hsame.novelty]
    exact h.frontier
  novelty := by
    rw [← hsame.novelty]
    exact h.novelty
  generated := hsame.generated ▸ h.generated
  generations := hsame.generations ▸ h.generations

omit [Scale α] in
/-- Noting a situation and its cost changes nothing. -/
theorem same_remember (s : Run α) (key : Option UInt64) (g : Nat) : s.Same (s.remember key g) :=
  ⟨nodes_remember .., frontier_remember .., novelty_remember .., generated_remember .., generations_remember ..⟩

/-- **A move changes nothing of nodes and frontier, or one child joins them.** -/
theorem offer_joins (s : Run α) (x : Search) (i : Nat) (n : Node α) (v : Move) :
    s.Same (s.offer x i n v) ∨ ∃ c, s.Joins x i n v c (s.offer x i n v) := by
  cases hr : s.isRevisit (x.key? v.next) (n.g + v.cost) with
  | true =>
    rw [offer_of_revisit hr]
    exact .inl ⟨rfl, rfl, rfl, rfl, generations_see rfl⟩
  | false =>
    rw [offer_of_new hr]
    have hsame := s.same_remember (x.key? v.next) (n.g + v.cost)
    generalize s.remember (x.key? v.next) (n.g + v.cost) = r at hsame ⊢
    have hasked : s.Same (r.asked x n v) :=
      ⟨hsame.nodes, hsame.frontier, hsame.novelty, hsame.generated, hsame.generations⟩
    cases hf : Scale.isFinite (r.heuristic.atMove x.model n.situation n.marks v).1.value with
    | false =>
      rw [estimate_of_infinite hf]
      exact .inl hasked
    | true =>
      rw [estimate_of_finite hf rfl]
      exact .inr ⟨_, hasked.joins ((r.asked x n v).joins_keep x i n v _ hf)⟩

/-- The numbers announced are 1, 2, 3, … without gaps. -/
def Numbered (s : Run α) : Prop := s.generations = List.range' 1 s.generated

/-- A node that joins has the next number. -/
theorem Numbered.offer {s : Run α} (h : s.Numbered) (x : Search) (i : Nat) (n : Node α) (v : Move) :
    (s.offer x i n v).Numbered := by
  unfold Numbered at h ⊢
  obtain hsame | ⟨c, hjoins⟩ := s.offer_joins x i n v
  · rw [hsame.generations, hsame.generated, h]
  · rw [hjoins.generations, hjoins.generated, hjoins.sequence, h, List.range'_1_concat, Nat.add_comm 1]

omit [Scale α] in
/-- Opening a node announces nothing. -/
theorem Numbered.opened {s : Run α} (h : s.Numbered) (q : Frontier α) (readings : Nat) (n : Node α) :
    (({ s with frontier := q, readings } : Run α).opened n).Numbered := by
  unfold Numbered at h ⊢
  exact (generations_see (s := { s with frontier := q, readings })
    (e := .expand n.sequence n.g n.h n.depth n.situation.network.length) rfl).trans h

end Run

/-! ## Walks along parents -/

/-- A walk along parents, as long as there is one: the nodes met, latest first. -/
inductive Ascent (nodes : Array (Node α)) : Nat → List (Node α) → Prop where
  /-- There is no parent. -/
  | stop {k : Nat} {n : Node α} (here : nodes[k]? = some n) (last : n.parent = none) : Ascent nodes k [n]
  /-- The walk goes on at the parent. -/
  | up {k p : Nat} {n : Node α} {rest : List (Node α)} (here : nodes[k]? = some n) (parent : n.parent = some p)
      (after : Ascent nodes p rest) : Ascent nodes k (n :: rest)

/-- **Every walk along parents ends**, after as many transitions as the node is deep, and what is read off it is what
leads to the node. -/
theorem Arena.exists_ascent {m : Model} {nodes : Array (Node α)} (h : Arena m nodes) {k : Nat} {n : Node α}
    (hn : nodes[k]? = some n) : ∃ met, Ascent nodes k met ∧
      met.reverse.filterMap (·.transition) = transitionsTo nodes k [] ∧ (transitionsTo nodes k []).length = n.depth := by
  induction k using Nat.strongRecOn generalizing n with
  | ind k ih =>
    rcases h.reached k n hn with ⟨rfl, hr⟩ | ⟨p, q, v, hp, hq, -, hc⟩
    · have hnone : transitionsTo nodes 0 [] = [] := by
        rw [transitionsTo, hn]
        simp [hr.parent, hr.transition]
      rw [hnone, hr.depth]
      exact ⟨[n], .stop hn hr.parent, by simp [hr.transition], rfl⟩
    · obtain ⟨met, hmet, hread, hlength⟩ := ih p hp hq
      have hlast := transitionsTo_child hn hp hc.parent hc.transition
      refine ⟨n :: met, .up hn hc.parent hmet, ?_, ?_⟩
      · rw [hlast, List.reverse_cons, List.filterMap_append, hread]
        simp [hc.transition]
      · rw [hlast, List.length_append, hlength, hc.depth]
        rfl

/-! ## Every moment of a search -/

namespace Search

/-- The runs that a search is in at some moment: between turns, in the middle of one, and when it is over. -/
inductive Passes (x : Search) (mon : Monitor) (s : Run α) : Run α → Prop where
  /-- Between two turns. -/
  | between {r : Run α} (reached : x.Reaches mon s r) : Passes x mon s r
  /-- A node was taken. -/
  | taken {r : Run α} {i : Nat} {q : Frontier α} (readings : Nat) (reached : x.Reaches mon s r)
      (pop : r.frontier.pop? = some (i, q)) : Passes x mon s { r with frontier := q, readings }
  /-- It was opened, and some of its moves were offered. -/
  | offered {r : Run α} {i : Nat} {q : Frontier α} {n : Node α} {first rest : List Move} (readings : Nat)
      (reached : x.Reaches mon s r) (pop : r.frontier.pop? = some (i, q)) (node : r.nodes[i]? = some n)
      (moves : n.situation.moves x.model = first ++ rest) :
      Passes x mon s (first.foldl (fun r v => r.offer x i n v) (({ r with frontier := q, readings } : Run α).opened n))
  /-- The search is over. -/
  | ended {r : Run α} {done : Finished α} (reached : x.Reaches mon s r) (last : x.step mon r = .finished done) :
      Passes x mon s done.last

end Search

/-- What every node knows of its ancestors, and what was announced. -/
structure Run.Lineage (m : Model) (s : Run α) : Prop where
  sequence : ∀ (k : Nat) (n : Node α), s.nodes[k]? = some n → n.sequence = k
  root : ∀ n, s.nodes[0]? = some n → n.IsRoot m
  /-- Any other node is one move from its parent, which stands before it. -/
  child : ∀ (k : Nat) (n : Node α), 0 < k → s.nodes[k]? = some n →
    ∃ (p : Nat) (q : Node α) (v : Move), p < k ∧ s.nodes[p]? = some q ∧ v ∈ q.situation.moves m ∧ n.IsChild p q v
  finite : ∀ (k : Nat) (n : Node α), s.nodes[k]? = some n → Scale.isFinite n.h = true
  /-- A walk along parents ends, and what is read off it is what leads to the node, at its cost and depth. -/
  ascent : ∀ (k : Nat) (n : Node α), s.nodes[k]? = some n → ∃ met, Ascent s.nodes k met ∧
    met.reverse.filterMap (·.transition) = transitionsTo s.nodes k [] ∧
    m.planCost (planTo s.nodes k) = n.g ∧ (transitionsTo s.nodes k []).length = n.depth
  announced : s.generations = List.range' 1 s.generated

/-- An arena whose nodes were announced one after another. -/
theorem Run.lineage_of_arena {m : Model} {s : Run α} (h : Arena m s.nodes) (hnumbered : s.Numbered) : s.Lineage m where
  sequence := h.sequence
  root n hn := by
    rcases h.reached 0 n hn with ⟨-, hr⟩ | ⟨p, -, -, hp, -⟩
    · exact hr
    · exact absurd hp (Nat.not_lt_zero p)
  child k n hk hn := by
    rcases h.reached k n hn with ⟨rfl, -⟩ | hchild
    · exact absurd hk (Nat.lt_irrefl 0)
    · exact hchild
  finite := h.finite
  ascent k n hn := by
    obtain ⟨met, hmet, hread, hlength⟩ := h.exists_ascent hn
    exact ⟨met, hmet, hread, (h.walk hn).2, hlength⟩
  announced := hnumbered

namespace Search

variable {x : Search} {mon : Monitor} {h : Heuristic α} {s r s' : Run α}

/-- A search begins with nothing announced. -/
theorem numbered_start (x : Search) (h : Heuristic α) : (x.start h).Numbered := by
  unfold Run.Numbered
  cases hf : Scale.isFinite (h.atRoot x.model x.model.start).1.value with
  | false =>
    rw [start_of_infinite hf]
    rfl
  | true =>
    rw [start_of_finite hf, Run.generations, Run.trace_keep, Run.trace_remember, Run.generated_keep,
      Run.generated_remember]
    rfl

/-- Every step goes on with the next number. -/
theorem numbered_step (hs : s.Numbered) (hstep : x.step mon s = .running s') : s'.Numbered := by
  obtain ⟨i, q, -, ⟨-, rfl⟩ | ⟨n, readings, -, -, rfl⟩⟩ := running_of_step hstep
  · exact hs
  · rw [Run.expand_eq]
    exact List.foldlRecOn (motive := Run.Numbered) _ _ (hs.opened q readings n) fun r hr v _ => hr.offer x i n v

/-- **At every moment of a search its nodes know where they come from.**  The node at position k is numbered k; the
root comes first and has no parent; any other node is where a move of an earlier node, its parent, leads, and has its
cost, its depth, and a total that adds its estimate, which is finite; a walk along parents ends, and off it the plan
is read that costs what the node records, through as many transitions as the node is deep; and what was announced are
the numbers from 1 on, without gaps. -/
theorem lineage_of_passes (hs : x.Passes mon (x.start h) s) : s.Lineage x.model := by
  have hreached : ∀ {r : Run α}, x.Reaches mon (x.start h) r → Arena x.model r.nodes ∧ r.Numbered := fun hr =>
    ⟨(grown_of_reaches hr).arena, hr.keeps (fun _ _ => numbered_step) (numbered_start x h)⟩
  cases hs with
  | between reached =>
    obtain ⟨harena, hnumbered⟩ := hreached reached
    exact Run.lineage_of_arena harena hnumbered
  | taken readings reached =>
    obtain ⟨harena, hnumbered⟩ := hreached reached
    exact Run.lineage_of_arena harena hnumbered
  | @offered r i q n first rest readings reached pop node moves =>
    obtain ⟨-, hnumbered⟩ := hreached reached
    have hgrown := grown_of_reaches reached
    refine Run.lineage_of_arena ?_ ?_
    · exact (Run.offers_induction (P := fun r : Run α => r.Grown x.model ∧ r.nodes[i]? = some n)
        (fun r v r' hv hr ho => Run.Grown.offered hr (moves ▸ List.mem_append_left rest hv) ho)
        (s := ({ r with frontier := q, readings } : Run α).opened n)
        ⟨⟨hgrown.arena, hgrown.count⟩, node⟩).1.arena
    · exact List.foldlRecOn (motive := Run.Numbered) _ _ (hnumbered.opened q readings n) fun r hr v _ =>
        hr.offer x i n v
  | @ended r done reached last =>
    obtain ⟨harena, hnumbered⟩ := hreached reached
    have hlast : done.last.nodes = r.nodes ∧ done.last.Numbered := by
      unfold Run.Numbered at hnumbered ⊢
      rcases finished_of_step last with ⟨-, rfl⟩ | ⟨i, q, n, -, -, ⟨-, rfl⟩ | ⟨-, st, rd, -, rfl⟩⟩ <;>
        exact ⟨rfl, (Run.generations_see rfl).trans hnumbered⟩
    exact Run.lineage_of_arena (hlast.1 ▸ harena) hlast.2

/-- When the lamp is lit, its ways there are known, and what was generated is numbered. -/
theorem lineage_of_passes_lamp :
    ∃ done : Finished Float, (lamp [0]).Passes ⟨fun _ => 0, fun _ => none⟩ ((lamp [0]).start (.fresh .blind))
        done.last ∧ done.last.Lineage (.lamp [0]) ∧ done.last.generations = [1, 2, 3, 4] := by
  obtain ⟨done, hr⟩ : ∃ done : Finished Float, (lamp [0]).run ⟨fun _ => 0, fun _ => none⟩ 9
      ((lamp [0]).start (.fresh .blind)) = some done :=
    Option.isSome_iff_exists.mp (by decide +kernel)
  have hcount : ((lamp [0]).run ⟨fun _ => 0, fun _ => none⟩ 9 ((lamp [0]).start
      (.fresh .blind) : Run Float)).map (fun d => d.last.generated) = some 4 := by
    decide +kernel
  rw [hr, Option.map_some, Option.some.injEq] at hcount
  obtain ⟨last, hreached, hlast⟩ := exists_last hr
  have hpasses := Passes.ended hreached hlast
  have hlineage := lineage_of_passes hpasses
  exact ⟨done, hpasses, hlineage, hlineage.announced.trans (congrArg (List.range' 1) hcount)⟩

end Search

end HierPlan
