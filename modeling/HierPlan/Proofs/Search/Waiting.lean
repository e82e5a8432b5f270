import HierPlan.Proofs.Search.Arena

/-!
# Proofs/Search/Waiting — what holds of every node that waits

    root                ts ──▸ node                       waits
                        ts ──▸ node ──move v──▸ child     waits, with ts ++ [v]

Every node that waits does so once, and stays as it was put there until it is taken: marks are let go of nodes
that were taken only.  So whatever holds of the root and goes over from a node to its children holds of every node
that waits, and of the transitions that led to it (`Search.waits_of_reaches`).
-/

namespace HierPlan

variable {α : Type} {nodes nodes' : Array (Node α)} {i : Nat} {n c : Node α}

/-! ## What led to a node -/

/-- What led to a node is read off parents and transitions. -/
theorem transitionsTo_congr
    (h : ∀ k ≤ i, (nodes'[k]?).map (fun n => (n.parent, n.transition)) =
      (nodes[k]?).map fun n => (n.parent, n.transition)) (after : List Transition) :
    transitionsTo nodes' i after = transitionsTo nodes i after := by
  induction i using Nat.strongRecOn generalizing after with
  | ind i ih =>
    rw [transitionsTo, transitionsTo.eq_def nodes i]
    have here := h i (Nat.le_refl i)
    cases hn : nodes[i]? with
    | none =>
      rw [hn, Option.map_none, Option.map_eq_none_iff] at here
      rw [here]
    | some n =>
      rw [hn, Option.map_some, Option.map_eq_some_iff] at here
      obtain ⟨n', hn', he⟩ := here
      obtain ⟨hparent, htransition⟩ := Prod.mk.inj he
      rw [hn']
      dsimp only
      rw [hparent, htransition]
      cases n.parent with
      | none => rfl
      | some p =>
        dsimp only
        split
        · rename_i hp
          exact ih p hp (fun k hk => h k (Nat.le_trans hk (Nat.le_of_lt hp))) _
        · rfl

/-- A new node leaves what led to older ones. -/
theorem transitionsTo_push (hi : i < nodes.size) (after : List Transition) :
    transitionsTo (nodes.push c) i after = transitionsTo nodes i after :=
  transitionsTo_congr (fun k hk => by
    have hlt := Nat.lt_of_le_of_lt hk hi
    rw [Array.getElem?_push_lt hlt, Array.getElem?_eq_getElem hlt]) after

/-- Marks do not matter. -/
theorem transitionsTo_forgetMarks (k : Nat) (after : List Transition) :
    transitionsTo (forgetMarks nodes k) i after = transitionsTo nodes i after := by
  refine transitionsTo_congr (fun j _ => ?_) after
  rw [getElem?_forgetMarks, Option.map_map]
  refine congrArg (fun f => (nodes[j]?).map f) (funext fun n => ?_)
  dsimp only [Function.comp]
  split <;> rfl

/-! ## Nodes that wait -/

variable [Scale α] {m : Model} {x : Search} {mon : Monitor} {s s' : Run α} {v : Move} {e : Estimator α}
  {Q : List Transition → Node α → Prop}

/-- Positions wait once each, and what is asked holds of every node that waits, with what led to it. -/
structure Run.Waits (Q : List Transition → Node α → Prop) (s : Run α) : Prop where
  nodup : s.frontier.toList.Nodup
  each : ∀ i ∈ s.frontier.toList, ∃ n, s.nodes[i]? = some n ∧ Q (transitionsTo s.nodes i []) n

/-- What is asked goes over to children that an estimator does not call dead ends. -/
def Estimator.Passes (m : Model) (e : Estimator α) (Q : List Transition → Node α → Prop) : Prop :=
  ∀ (ts : List Transition) (n : Node α) (v : Move) (h : Heuristic α) (i sequence : Nat), h.estimator = e →
    Q ts n → v ∈ n.situation.moves m → Scale.isFinite (h.atMove m n.situation n.marks v).1.value = true →
    Q (ts ++ [v.transition]) (n.child i v (h.atMove m n.situation n.marks v).1 sequence)

namespace Run

omit [Scale α] in
theorem Waits.lt_size (h : s.Waits Q) (hi : i ∈ s.frontier.toList) : i < s.nodes.size := by
  obtain ⟨n, hn, -⟩ := h.each i hi
  exact (Array.getElem?_eq_some_iff.mp hn).1

/-- What holds while the moves of a node are offered: it was taken, and what is asked holds of it too. -/
structure Taken (Q : List Transition → Node α → Prop) (e : Estimator α) (i : Nat) (n : Node α) (s : Run α) :
    Prop where
  waits : s.Waits Q
  node : s.nodes[i]? = some n
  gone : i ∉ s.frontier.toList
  asked : Q (transitionsTo s.nodes i []) n
  estimator : s.heuristic.estimator = e

/-- A node that joins waits too. -/
theorem Taken.push (h : s.Taken Q e i n) {novel : Bool} (hnodes : s'.nodes = s.nodes.push c)
    (hfrontier : s'.frontier = s.frontier.push s.nodes.size c novel)
    (hestimator : s'.heuristic.estimator = s.heuristic.estimator)
    (hc : Q (transitionsTo s'.nodes s.nodes.size []) c) : s'.Taken Q e i n := by
  have hi := (Array.getElem?_eq_some_iff.mp h.node).1
  have hlist : s'.frontier.toList.Perm (s.nodes.size :: s.frontier.toList) :=
    hfrontier ▸ Frontier.toList_push ..
  have hwaits : ∀ {k : Nat}, k ∈ s'.frontier.toList ↔ k = s.nodes.size ∨ k ∈ s.frontier.toList := by
    intro k
    rw [hlist.mem_iff, List.mem_cons]
  refine ⟨⟨?_, fun k hk => ?_⟩, ?_, fun hin => ?_, ?_, hestimator.trans h.estimator⟩
  · rw [hlist.nodup_iff, List.nodup_cons]
    exact ⟨fun hin => Nat.lt_irrefl _ (h.waits.lt_size hin), h.waits.nodup⟩
  · obtain rfl | hold := hwaits.mp hk
    · exact ⟨c, by rw [hnodes, Array.getElem?_push_size], hc⟩
    · obtain ⟨n, hn, hq⟩ := h.waits.each k hold
      refine ⟨n, hnodes ▸ Arena.getElem?_push_of_some hn, ?_⟩
      rwa [hnodes, transitionsTo_push (h.waits.lt_size hold)]
  · exact hnodes ▸ Arena.getElem?_push_of_some h.node
  · obtain rfl | hold := hwaits.mp hin
    · exact Nat.lt_irrefl _ hi
    · exact h.gone hold
  · rw [hnodes, transitionsTo_push hi]
    exact h.asked

omit [Scale α] in
/-- Whatever leaves nodes, frontier and estimator alone leaves it as it was. -/
theorem Taken.congr (h : s.Taken Q e i n) (hnodes : s'.nodes = s.nodes) (hfrontier : s'.frontier = s.frontier)
    (hestimator : s'.heuristic.estimator = s.heuristic.estimator) : s'.Taken Q e i n := by
  refine ⟨⟨hfrontier ▸ h.waits.nodup, ?_⟩, hnodes ▸ h.node, hfrontier ▸ h.gone, hnodes ▸ h.asked,
    hestimator.trans h.estimator⟩
  rw [hnodes, hfrontier]
  exact h.waits.each

/-- **A move that is offered keeps it.** -/
theorem Taken.offered (he : e.Passes x.model Q) (h : s.Taken Q e i n) (hv : v ∈ n.situation.moves x.model)
    (ho : s.Offered x i n v s') : s'.Taken Q e i n := by
  cases ho with
  | revisit => exact h.congr rfl rfl rfl
  | new _ estimated =>
    have hestimator : (s.remember (x.key? v.next) (n.g + v.cost)).heuristic.estimator = s.heuristic.estimator :=
      congrArg Heuristic.estimator (heuristic_remember ..)
    cases estimated with
    | deadEnd => exact h.congr (nodes_remember ..) (frontier_remember ..) hestimator
    | kept finite child =>
      have hi := (Array.getElem?_eq_some_iff.mp h.node).1
      rw [heuristic_remember] at finite child
      refine h.push (by rw [nodes_remember]) (by rw [nodes_remember, frontier_remember]) hestimator ?_
      dsimp only
      rw [nodes_remember, Arena.transitionsTo_child Array.getElem?_push_size hi (by rw [child]; rfl)
        (by rw [child]; rfl), transitionsTo_push hi, child]
      exact he _ n v _ i _ h.estimator h.asked hv finite

omit [Scale α] in
/-- Once all moves were offered, the marks of the node may go. -/
theorem Taken.close (h : s.Taken Q e i n) : ({ s with nodes := forgetMarks s.nodes i } : Run α).Waits Q := by
  refine ⟨h.waits.nodup, fun k hk => ?_⟩
  obtain ⟨n, hn, hq⟩ := h.waits.each k hk
  refine ⟨n, ?_, by rwa [transitionsTo_forgetMarks]⟩
  rw [getElem?_forgetMarks, hn, Option.map_some, if_neg fun hki : i = k => h.gone (hki ▸ hk)]

end Run

namespace Search

/-- **Every step keeps it.** -/
theorem waits_step (he : e.Passes x.model Q) (hs : s.Waits Q ∧ s.heuristic.estimator = e)
    (h : x.step mon s = .running s') : s'.Waits Q ∧ s'.heuristic.estimator = e := by
  obtain ⟨hwaits, hestimator⟩ := hs
  obtain ⟨i, q, hpop, ⟨hnone, rfl⟩ | ⟨n, readings, hn, -, rfl⟩⟩ := running_of_step h
  all_goals
    have hlist := Frontier.toList_of_pop? hpop
    have hi : i ∈ s.frontier.toList := hlist.mem_iff.mpr List.mem_cons_self
    obtain ⟨n', hn', hq⟩ := hwaits.each i hi
  · rw [hnone] at hn'
    cases hn'
  · obtain rfl := Option.some.inj (hn.symm.trans hn')
    have hnodup := List.nodup_cons.mp (hlist.nodup_iff.mp hwaits.nodup)
    have htaken : (({ s with frontier := q, readings } : Run α).opened n).Taken Q e i n :=
      ⟨⟨hnodup.2, fun k hk => hwaits.each k (hlist.mem_iff.mpr (List.mem_cons_of_mem i hk))⟩, hn, hnodup.1, hq,
        hestimator⟩
    have hend : (({ s with frontier := q, readings } : Run α).offered x i n).Taken Q e i n :=
      Run.offers_induction (fun r v r' hv hr ho => hr.offered he hv ho) htaken
    rw [Run.expand_eq]
    exact ⟨hend.close, hend.estimator⟩

/-- **A search begins with it**, if it holds of the root. -/
theorem waits_start {h : Heuristic α}
    (hroot : Scale.isFinite (h.atRoot x.model x.model.start).1.value = true →
      Q [] (Node.root x.model.start (h.atRoot x.model x.model.start).1)) : (x.start h).Waits Q := by
  generalize hs : x.start h = s
  have started := start_cases x h
  rw [hs] at started
  cases started with
  | deadEnd _ _ frontier =>
    refine ⟨?_, ?_⟩ <;> rw [frontier, Frontier.toList_empty]
    · exact List.nodup_nil
    · exact fun k hk => absurd hk List.not_mem_nil
  | @kept n novel finite root nodes frontier =>
    have hlist : s.frontier.toList.Perm [0] := by
      have hpush := Frontier.toList_push (Frontier.empty x.options.kind) 0 n novel
      rwa [Frontier.toList_empty, ← frontier] at hpush
    refine ⟨hlist.nodup_iff.mpr (List.nodup_cons.mpr ⟨List.not_mem_nil, List.nodup_nil⟩), fun k hk => ?_⟩
    obtain rfl := List.mem_singleton.mp (hlist.mem_iff.mp hk)
    have htransitions : transitionsTo s.nodes 0 [] = [] := by
      rw [nodes, transitionsTo, root]
      rfl
    exact ⟨n, by rw [nodes]; rfl, by rw [htransitions, root]; exact hroot finite⟩

/-- **What holds of the root and goes over to children holds of every node that waits**, in every run a search
passes through. -/
theorem waits_of_reaches {h : Heuristic α} {r : Run α} (hr : x.Reaches mon (x.start h) r)
    (he : (x.start h).heuristic.estimator.Passes x.model Q)
    (hroot : Scale.isFinite (h.atRoot x.model x.model.start).1.value = true →
      Q [] (Node.root x.model.start (h.atRoot x.model x.model.start).1)) : r.Waits Q :=
  (hr.keeps (fun _ _ hs hstep => waits_step he hs hstep) ⟨waits_start hroot, rfl⟩).1

end Search

end HierPlan
