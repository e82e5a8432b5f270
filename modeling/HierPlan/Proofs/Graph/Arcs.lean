import HierPlan.Graph.View
import HierPlan.Proofs.Model.WellFormed
import Mathlib.Data.List.Basic

/-!
# Proofs/Graph/Arcs — what feeds what

        f ∈ pre         f ∈ add                subtask          of the task
    fact ─────▸ operator ─────▸ fact     task ─────▸ method ─────▸ task

The predecessors of a node are read off the list of arcs, and the list of arcs off the problem.
**Between components of a well-formed problem every arc counts** (`View.isSome_label_of_feeds`),
so the predecessors of a node that is not given are exactly the sources of its arcs
(`View.predecessors_eq`).
-/

namespace HierPlan

/-! ## Arcs of a list -/

namespace AndOrGraph

/-- The sources of the arcs into a slot. -/
def sources (arcs : List (Nat × Nat)) (id : Nat) : List Nat :=
  arcs.filterMap fun a => if a.2 == id then some a.1 else none

theorem mem_sources {arcs : List (Nat × Nat)} {p id : Nat} :
    p ∈ sources arcs id ↔ (p, id) ∈ arcs := by
  rw [sources, List.mem_filterMap]
  constructor
  · rintro ⟨⟨q, s⟩, ha, he⟩
    split at he
    · rename_i hs
      obtain rfl := Option.some.inj he
      obtain rfl := beq_iff_eq.mp hs
      exact ha
    · cases he
  · exact fun h => ⟨_, h, by simp⟩

theorem sources_append (a b : List (Nat × Nat)) (id : Nat) :
    sources (a ++ b) id = sources a id ++ sources b id := List.filterMap_append

theorem sources_flatMap {β : Type} (xs : List β) (draw : β → List (Nat × Nat)) (id : Nat) :
    sources (xs.flatMap draw) id = xs.flatMap fun x => sources (draw x) id := List.filterMap_flatMap

theorem sources_eq_nil {arcs : List (Nat × Nat)} {id : Nat} (h : ∀ a ∈ arcs, a.2 ≠ id) :
    sources arcs id = [] := by
  refine List.eq_nil_iff_forall_not_mem.mpr fun p hp => ?_
  exact h _ (mem_sources.mp hp) rfl

/-- Arcs into one slot, drawn from a list of sources. -/
theorem sources_map {α : Type} (f : α → Nat) (xs : List α) (id : Nat) :
    sources (xs.map fun x => (f x, id)) id = xs.map f := by
  rw [sources, List.filterMap_map]
  simp

/-- **An arc is listed at its target as often as it is drawn.** -/
theorem count_sources (arcs : List (Nat × Nat)) (p id : Nat) :
    (sources arcs id).count p = arcs.count (p, id) := by
  induction arcs with
  | nil => rfl
  | cons a arcs ih =>
    obtain ⟨x, y⟩ := a
    have hcons : sources ((x, y) :: arcs) id = (if y = id then [x] else []) ++ sources arcs id := by
      unfold sources
      by_cases hy : y = id <;> simp [hy]
    rw [hcons, List.count_append, ih, List.count_cons, Nat.add_comm]
    by_cases hy : y = id <;> simp [hy, List.count_cons]

/-- The targets of the arcs out of a slot. -/
def sinks (arcs : List (Nat × Nat)) (id : Nat) : List Nat :=
  arcs.filterMap fun a => if a.1 == id then some a.2 else none

/-- **An arc is listed at its source as often as it is drawn.** -/
theorem count_sinks (arcs : List (Nat × Nat)) (id s : Nat) :
    (sinks arcs id).count s = arcs.count (id, s) := by
  induction arcs with
  | nil => rfl
  | cons a arcs ih =>
    obtain ⟨x, y⟩ := a
    have hcons : sinks ((x, y) :: arcs) id = (if x = id then [y] else []) ++ sinks arcs id := by
      unfold sinks
      by_cases hx : x = id <;> simp [hx]
    rw [hcons, List.count_append, ih, List.count_cons, Nat.add_comm]
    by_cases hx : x = id <;> simp [hx, List.count_cons]

section Nodes

variable {size id : Nat} {label : Nat → Option NodeLabel} {arcs : List (Nat × Nat)} {n : GraphNode}

/-- A node is its label with the arcs that count. -/
theorem exists_of_node?_ofArcs (h : (ofArcs size label arcs).node? id = some n) :
    ∃ l, label id = some l ∧ n = withArcs (arcs.filter (accepts label)) id l := by
  have hid := lt_size_of_node? h
  rw [size_ofArcs] at hid
  rw [node?_ofArcs hid, Option.map_eq_some_iff] at h
  obtain ⟨l, hl, rfl⟩ := h
  exact ⟨l, hl, rfl⟩

/-- Where labels are those of slots of the graph, every label has its node, and there are no other nodes. -/
theorem node?_ofArcs_of_labels (hlabel : ∀ id l, label id = some l → id < size) :
    (ofArcs size label arcs).node? id = (label id).map (withArcs (arcs.filter (accepts label)) id) := by
  by_cases hid : id < size
  · exact node?_ofArcs hid
  · cases hl : label id with
    | none => exact node?_eq_none (by simpa using hid)
    | some l => exact absurd (hlabel id l hl) hid

/-- **Nothing comes in to a node that is given**, whatever arcs there are into it. -/
theorem predecessors_of_given (h : (ofArcs size label arcs).node? id = some n) (hr : n.rule = .given) :
    n.predecessors = [] := by
  obtain ⟨l, hl, rfl⟩ := exists_of_node?_ofArcs h
  refine List.eq_nil_iff_forall_not_mem.mpr fun p hp => ?_
  have haccepts := (List.mem_filter.mp (mem_sources.mp hp)).2
  have hrule : l.rule = .given := hr
  simp [accepts, hl, hrule] at haccepts

end Nodes

end AndOrGraph

namespace View

variable {m : Model} {v : View}

/-! ## Arcs of a problem -/

/-- **What feeds what.** -/
inductive Feeds (m : Model) (v : View) : Nat → Nat → Prop where
  /-- A precondition, its operator. -/
  | condition {i f : Nat} {o : Operator} (facts : v.hasFacts = true)
      (known : m.operators[i]? = some o) (wanted : f ∈ o.pre) : Feeds m v f (m.operatorId i)
  /-- An operator, the facts it makes true. -/
  | effect {i f : Nat} {o : Operator} (facts : v.hasFacts = true)
      (known : m.operators[i]? = some o) (added : f ∈ o.add) : Feeds m v (m.operatorId i) f
  /-- A precondition, its method. -/
  | guard {i f : Nat} {d : Method} (facts : v.hasFacts = true)
      (known : m.methods[i]? = some d) (wanted : f ∈ d.pre) : Feeds m v f (m.methodId i)
  /-- A subtask, the method that needs it. -/
  | subtask {i : Nat} {d : Method} {t : Task} (up : v ≠ .topDown)
      (known : m.methods[i]? = some d) (listed : t ∈ d.network) :
      Feeds m v (v.subtaskId m t) (m.methodId i)
  /-- A method, the task it refines. -/
  | refines {i : Nat} {d : Method} (up : v ≠ .topDown) (known : m.methods[i]? = some d) :
      Feeds m v (m.methodId i) (m.compoundId d.task)
  /-- A task, the methods that refine it. -/
  | chosen {i : Nat} {d : Method} (down : v = .topDown) (known : m.methods[i]? = some d) :
      Feeds m v (m.compoundId d.task) (m.methodId i)
  /-- A method, its subtasks. -/
  | part {i : Nat} {d : Method} {t : Task} (down : v = .topDown)
      (known : m.methods[i]? = some d) (listed : t ∈ d.network) :
      Feeds m v (m.methodId i) (v.subtaskId m t)
  /-- An operator, its recomposition node. -/
  | recompose {i : Nat} (composed : v = .composition) (known : i < m.operators.size) :
      Feeds m v (m.operatorId i) (recompositionId m i)
  /-- A recomposition node, its operator. -/
  | asked {i : Nat} (down : v = .topDown) (known : i < m.operators.size) :
      Feeds m v (recompositionId m i) (m.operatorId i)

theorem feeds_of_mem_methodArcs {i : Nat} {d : Method} {p s : Nat} (known : m.methods[i]? = some d)
    (h : (p, s) ∈ v.methodArcs m (m.methodId i) d) : v.Feeds m p s := by
  by_cases hv : v = .topDown
  · subst hv
    simp only [methodArcs, List.mem_cons, Prod.mk.injEq, List.mem_map] at h
    obtain ⟨rfl, rfl⟩ | ⟨t, ht, rfl, rfl⟩ := h
    · exact .chosen rfl known
    · exact .part rfl known ht
  · have hmem : (p, s) ∈ (d.network.map fun t => (v.subtaskId m t, m.methodId i)) ++
        [(m.methodId i, m.compoundId d.task)] := by
      cases v <;> first | exact h | exact absurd rfl hv
    rw [List.mem_append, List.mem_map, List.mem_singleton, Prod.mk.injEq] at hmem
    obtain ⟨t, ht, he⟩ | ⟨rfl, rfl⟩ := hmem
    · cases he
      exact .subtask hv known ht
    · exact .refines hv known

theorem feeds_of_mem_factArcs {p s : Nat} (h : (p, s) ∈ v.factArcs m) : v.Feeds m p s := by
  unfold factArcs at h
  split at h
  · rename_i hv
    simp only [List.mem_append, List.mem_flatMap, Prod.exists, mem_zipIdx, operatorArcs, methodPreArcs,
      List.mem_map, IdSet.mem_toList, Prod.mk.injEq] at h
    obtain ⟨o, i, known, ⟨f, hf, rfl, rfl⟩ | ⟨f, hf, rfl, rfl⟩⟩ | ⟨d, i, known, f, hf, rfl, rfl⟩ := h
    · exact .condition hv known hf
    · exact .effect hv known hf
    · exact .guard hv known hf
  · exact absurd h List.not_mem_nil

theorem feeds_of_mem_recompositionArcs {i : Nat} {p s : Nat} (known : i < m.operators.size)
    (h : (p, s) ∈ v.recompositionArcs m i (m.operatorId i)) : v.Feeds m p s := by
  cases v with
  | bottomUp => exact absurd h List.not_mem_nil
  | decomposition w => exact absurd h List.not_mem_nil
  | topDown =>
    obtain ⟨rfl, rfl⟩ := Prod.mk.inj (List.mem_singleton.mp h)
    exact .asked rfl known
  | composition =>
    obtain ⟨rfl, rfl⟩ := Prod.mk.inj (List.mem_singleton.mp h)
    exact .recompose rfl known

/-- Operators give arcs from and to facts where there are facts. -/
theorem mem_factArcs_of_operator {i : Nat} {o : Operator} (hv : v.hasFacts = true)
    (known : m.operators[i]? = some o) {a : Nat × Nat} (ha : a ∈ operatorArcs (m.operatorId i) o) : a ∈ v.factArcs m := by
  rw [factArcs, if_pos hv]
  exact List.mem_append_left _ (List.mem_flatMap.mpr ⟨(o, i), mem_zipIdx.mpr known, ha⟩)

/-- Methods give arcs from facts there as well. -/
theorem mem_factArcs_of_method {i : Nat} {d : Method} (hv : v.hasFacts = true)
    (known : m.methods[i]? = some d) {a : Nat × Nat} (ha : a ∈ methodPreArcs (m.methodId i) d) : a ∈ v.factArcs m := by
  rw [factArcs, if_pos hv]
  exact List.mem_append_right _ (List.mem_flatMap.mpr ⟨(d, i), mem_zipIdx.mpr known, ha⟩)

/-- An arc is between facts, belongs to a method, or leads through recomposition. -/
theorem mem_arcs_cases {a : Nat × Nat} : a ∈ v.arcs m ↔
    (a ∈ v.factArcs m ∨ ∃ d i, m.methods[i]? = some d ∧ a ∈ v.methodArcs m (m.methodId i) d) ∨
      ∃ i < m.operators.size, a ∈ v.recompositionArcs m i (m.operatorId i) := by
  simp only [arcs, List.mem_append, List.mem_flatMap, Prod.exists, mem_zipIdx, List.mem_range]

/-- **The arcs of a problem are exactly what feeds what.** -/
theorem mem_arcs {p s : Nat} : (p, s) ∈ v.arcs m ↔ v.Feeds m p s := by
  rw [mem_arcs_cases]
  constructor
  · rintro ((h | ⟨d, i, known, h⟩) | ⟨i, known, h⟩)
    · exact feeds_of_mem_factArcs h
    · exact feeds_of_mem_methodArcs known h
    · exact feeds_of_mem_recompositionArcs known h
  · intro h
    cases h with
    | condition facts known wanted =>
      exact .inl (.inl (mem_factArcs_of_operator facts known (List.mem_append_left _
        (List.mem_map.mpr ⟨p, IdSet.mem_toList.mpr wanted, rfl⟩))))
    | effect facts known added =>
      exact .inl (.inl (mem_factArcs_of_operator facts known (List.mem_append_right _
        (List.mem_map.mpr ⟨s, IdSet.mem_toList.mpr added, rfl⟩))))
    | guard facts known wanted =>
      exact .inl (.inl (mem_factArcs_of_method facts known
        (List.mem_map.mpr ⟨p, IdSet.mem_toList.mpr wanted, rfl⟩)))
    | subtask up known listed =>
      refine .inl (.inr ⟨_, _, known, ?_⟩)
      cases v <;> first
        | exact absurd rfl up
        | exact List.mem_append_left _ (List.mem_map.mpr ⟨_, listed, rfl⟩)
    | refines up known =>
      refine .inl (.inr ⟨_, _, known, ?_⟩)
      cases v <;> first
        | exact absurd rfl up
        | exact List.mem_append_right _ (List.mem_singleton.mpr rfl)
    | chosen down known =>
      subst down
      exact .inl (.inr ⟨_, _, known, List.mem_cons_self⟩)
    | part down known listed =>
      subst down
      exact .inl (.inr ⟨_, _, known, List.mem_cons_of_mem _ (List.mem_map.mpr ⟨_, listed, rfl⟩)⟩)
    | recompose composed known =>
      subst composed
      exact .inr ⟨_, known, List.mem_singleton.mpr rfl⟩
    | asked down known =>
      subst down
      exact .inr ⟨_, known, List.mem_singleton.mpr rfl⟩

/-! ## Labels -/

/-- A component has the label of its kind. -/
theorem label_idOf {c : Component} (h : m.HasComponent c) :
    v.label m (m.idOf c) = v.componentLabel m c := by
  rw [label, Model.componentAt?_idOf h]

/-- Past the components stand the further slots. -/
theorem label_size_add (k : Nat) : v.label m (m.size + k) = v.extraLabel m k := by
  have hnone : m.componentAt? (m.size + k) = none := by
    unfold Model.componentAt?
    rw [if_neg (by simp only [Model.operatorId, Model.size]; omega),
      if_neg (by simp only [Model.compoundId, Model.size]; omega),
      if_neg (by simp only [Model.methodId, Model.size]; omega), if_neg (by omega)]
  rw [label, hnone, Nat.add_sub_cancel_left]

theorem idOf_lt_size {c : Component} (h : m.HasComponent c) : m.idOf c < m.size := by
  cases c <;>
    simp only [Model.HasComponent, Model.idOf, Model.operatorId, Model.compoundId, Model.methodId,
      Model.size] at h ⊢ <;>
    omega

theorem label_fact {f : Nat} (hv : v.hasFacts = true) (hf : f < m.facts.size) :
    v.label m f = some ⟨.fact, if v.givesFacts && m.init.contains f then .given else .any, 0⟩ := by
  have h := label_idOf (v := v) (c := .fact f) hf
  rw [componentLabel, if_pos hv] at h
  exact h

theorem label_operator {i : Nat} (hi : i < m.operators.size) :
    v.label m (m.operatorId i) = some ⟨.operator, .all, v.operatorWeight m i⟩ :=
  label_idOf (c := .operator i) hi

theorem label_compound {a : Nat} (ha : a < m.compounds.size) :
    v.label m (m.compoundId a) = some ⟨.compound, v.taskRule m (.compound a), 0⟩ :=
  label_idOf (c := .compound a) ha

theorem label_method {d : Nat} (hd : d < m.methods.size) :
    v.label m (m.methodId d) = some ⟨.method, .all, 0⟩ :=
  label_idOf (c := .method d) hd

theorem label_recomposition {i : Nat} (hi : i < m.operators.size) :
    View.composition.label m (recompositionId m i) = some ⟨.recomposition, .any, 0⟩ := by
  rw [recompositionId, label_size_add, extraLabel, if_pos hi]

theorem label_goal : View.composition.label m (goalId m) = some ⟨.goal, .all, 0⟩ := by
  rw [goalId, label_size_add, extraLabel, if_neg (Nat.lt_irrefl _), if_pos rfl]

theorem taskRule_ne_all (t : Task) : v.taskRule m t ≠ .all := by
  unfold taskRule
  split <;> exact fun h => nomatch h

theorem isSome_label_recomposition {i : Nat} (hi : i < m.operators.size)
    (hv : v = .topDown ∨ v = .composition) : (v.label m (recompositionId m i)).isSome = true := by
  rw [recompositionId, label_size_add]
  rcases hv with rfl | rfl <;> simp [extraLabel, hi]

theorem isSome_label_subtask {t : Task} (ht : m.HasTask t) :
    (v.label m (v.subtaskId m t)).isSome = true := by
  cases t with
  | compound a => exact Option.isSome_iff_exists.mpr ⟨_, label_compound ht⟩
  | operator i =>
    cases v with
    | bottomUp => exact Option.isSome_iff_exists.mpr ⟨_, label_operator ht⟩
    | decomposition w => exact Option.isSome_iff_exists.mpr ⟨_, label_operator ht⟩
    | topDown => exact isSome_label_recomposition ht (.inl rfl)
    | composition => exact isSome_label_recomposition ht (.inr rfl)

/-- **Both ends of every arc of a well-formed problem hold a node.** -/
theorem isSome_label_of_feeds (hw : m.WellFormed) {p s : Nat} (h : v.Feeds m p s) :
    (v.label m p).isSome = true ∧ (v.label m s).isSome = true := by
  have fact : ∀ {f : Nat}, v.hasFacts = true → f < m.facts.size → (v.label m f).isSome = true :=
    fun hv hf => Option.isSome_iff_exists.mpr ⟨_, label_fact hv hf⟩
  have operator : ∀ {i : Nat}, i < m.operators.size → (v.label m (m.operatorId i)).isSome = true :=
    fun hi => Option.isSome_iff_exists.mpr ⟨_, label_operator hi⟩
  have method : ∀ {i : Nat} {d : Method}, m.methods[i]? = some d →
      (v.label m (m.methodId i)).isSome = true := fun known =>
    Option.isSome_iff_exists.mpr ⟨_, label_method (Array.getElem?_eq_some_iff.mp known).1⟩
  have compound : ∀ {a : Nat}, a < m.compounds.size → (v.label m (m.compoundId a)).isSome = true :=
    fun ha => Option.isSome_iff_exists.mpr ⟨_, label_compound ha⟩
  cases h with
  | condition facts known wanted =>
    have hlt := (hw.operators _ _ known).pre ▸ IdSet.lt_width_of_mem wanted
    exact ⟨fact facts hlt, operator (Array.getElem?_eq_some_iff.mp known).1⟩
  | effect facts known added =>
    have hlt := (hw.operators _ _ known).add ▸ IdSet.lt_width_of_mem added
    exact ⟨operator (Array.getElem?_eq_some_iff.mp known).1, fact facts hlt⟩
  | guard facts known wanted =>
    have hlt := (hw.methods _ _ known).pre ▸ IdSet.lt_width_of_mem wanted
    exact ⟨fact facts hlt, method known⟩
  | subtask up known listed =>
    exact ⟨isSome_label_subtask ((hw.methods _ _ known).network _ listed), method known⟩
  | refines up known => exact ⟨method known, compound (hw.methods _ _ known).task⟩
  | chosen down known => exact ⟨compound (hw.methods _ _ known).task, method known⟩
  | part down known listed =>
    exact ⟨method known, isSome_label_subtask ((hw.methods _ _ known).network _ listed)⟩
  | recompose composed known => exact ⟨operator known, isSome_label_recomposition known (.inr composed)⟩
  | asked down known => exact ⟨isSome_label_recomposition known (.inl down), operator known⟩

/-! ## Nodes -/

/-- A node has the label of its slot. -/
theorem label_of_node? {id : Nat} {n : GraphNode} (h : (v.graph m).node? id = some n) :
    v.label m id = some n.toNodeLabel := by
  obtain ⟨l, hl, rfl⟩ := AndOrGraph.exists_of_node?_ofArcs h
  exact hl

/-- **The predecessors of a node that is not given are the sources of all arcs into it.** -/
theorem predecessors_eq (hw : m.WellFormed) {id : Nat} {n : GraphNode}
    (h : (v.graph m).node? id = some n) (hr : n.rule ≠ .given) :
    n.predecessors = AndOrGraph.sources (v.arcs m) id := by
  obtain ⟨l, hl, rfl⟩ := AndOrGraph.exists_of_node?_ofArcs h
  change List.filterMap _ (List.filter _ _) = _
  rw [List.filterMap_filter, AndOrGraph.sources]
  refine List.filterMap_congr fun a ha => ?_
  by_cases hs : a.2 = id
  · have haccepts : AndOrGraph.accepts (v.label m) a = true := by
      have hsource := (isSome_label_of_feeds hw (mem_arcs.mp ha)).1
      rw [AndOrGraph.accepts, hsource, hs, hl]
      have hrule : l.rule ≠ .given := hr
      simpa using hrule
    rw [if_pos haccepts]
  · rw [if_neg (fun he : (a.2 == id) = true => hs (beq_iff_eq.mp he))]
    split <;> rfl

/-- A predecessor of a node that is not given feeds it, and the other way round. -/
theorem mem_predecessors (hw : m.WellFormed) {id p : Nat} {n : GraphNode}
    (h : (v.graph m).node? id = some n) (hr : n.rule ≠ .given) :
    p ∈ n.predecessors ↔ v.Feeds m p id := by
  rw [predecessors_eq hw h hr, AndOrGraph.mem_sources, mem_arcs]

/-- A labelled slot is one of the graph. -/
theorem lt_of_label {id : Nat} {l : NodeLabel} (h : v.label m id = some l) :
    id < m.size + v.extraSlots m := by
  unfold label at h
  split at h
  · rename_i c hc
    obtain ⟨rfl, hhas⟩ := Model.idOf_componentAt? hc
    exact Nat.lt_add_right _ (idOf_lt_size hhas)
  · cases v with
    | bottomUp => cases h
    | decomposition w => cases h
    | topDown =>
      simp only [extraLabel] at h
      split at h
      · simp only [extraSlots]
        omega
      · cases h
    | composition =>
      simp only [extraLabel] at h
      simp only [extraSlots]
      split at h
      · omega
      · split at h
        · omega
        · cases h

/-- **Every label has its node.** -/
theorem exists_node {id : Nat} {l : NodeLabel} (h : v.label m id = some l) :
    ∃ n, (v.graph m).node? id = some n ∧ n.toNodeLabel = l :=
  ⟨_, by rw [graph, AndOrGraph.node?_ofArcs (lt_of_label h), h, Option.map_some], rfl⟩

/-- What leads into a slot; nothing, if it is empty. -/
def into (v : View) (m : Model) (id : Nat) : List Nat :=
  (((v.graph m).node? id).map (·.predecessors)).getD []

/-- What leads out of a slot; nothing, if it is empty. -/
def outOf (v : View) (m : Model) (id : Nat) : List Nat :=
  (((v.graph m).node? id).map (·.successors)).getD []

/-- **Both ends of an arc list it equally often.** -/
theorem count_outOf (p s : Nat) : (v.outOf m p).count s = (v.into m s).count p := by
  have node : ∀ id, (v.graph m).node? id =
      (v.label m id).map (AndOrGraph.withArcs ((v.arcs m).filter (AndOrGraph.accepts (v.label m))) id) :=
    fun _ => AndOrGraph.node?_ofArcs_of_labels fun _ _ => lt_of_label
  have hout : (v.outOf m p).count s =
      ((v.arcs m).filter (AndOrGraph.accepts (v.label m))).count (p, s) := by
    unfold outOf
    rw [node]
    cases hl : v.label m p with
    | some l => exact AndOrGraph.count_sinks _ p s
    | none =>
      refine (List.count_eq_zero.mpr fun hin => ?_).symm
      have haccepts := (List.mem_filter.mp hin).2
      rw [AndOrGraph.accepts, hl] at haccepts
      cases haccepts
  have hinto : (v.into m s).count p =
      ((v.arcs m).filter (AndOrGraph.accepts (v.label m))).count (p, s) := by
    unfold into
    rw [node]
    cases hl : v.label m s with
    | some l => exact AndOrGraph.count_sources _ p s
    | none =>
      refine (List.count_eq_zero.mpr fun hin => ?_).symm
      have haccepts := (List.mem_filter.mp hin).2
      rw [AndOrGraph.accepts, hl] at haccepts
      simp at haccepts
  rw [hout, hinto]

end View

end HierPlan
