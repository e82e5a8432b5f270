import HierPlan.Graph.Drawing
import HierPlan.Proofs.Graph.Arcs
import Mathlib.Logic.Function.Basic

/-!
# Proofs/Graph/Drawing — drawing a graph arc by arc leaves out no arc that counts

    nodes put so far      =  the graph of their labels, without arcs
    arcs drawn so far     =  the graph of all labels, with these arcs

Putting a node into a graph without arcs adds a label (`AndOrGraph.put_ofArcs`), and drawing an arc adds it to the
list of arcs (`AndOrGraph.draw_ofArcs`): what is looked at when an arc is drawn is what counts in the end, since no
node is put after the first arc.  Components that store the ids of their positions are put and joined where the view
has them.  **So the graph that is drawn of a well-formed problem is the graph of the problem**
(`View.drawn_eq_graph`).
-/

namespace HierPlan

namespace AndOrGraph

variable {g h : AndOrGraph} {size id : Nat} {label : Nat → Option NodeLabel} {arcs : List (Nat × Nat)}

/-- A graph is its size and its nodes. -/
theorem ext_node? (hsize : g.size = h.size) (hnode : ∀ id, g.node? id = h.node? id) : g = h := by
  obtain ⟨xs⟩ := g
  obtain ⟨ys⟩ := h
  refine congrArg mk (Array.ext hsize fun i hi hj => ?_)
  have hi' : (xs[i]?).join = (ys[i]?).join := hnode i
  rwa [Array.getElem?_eq_getElem hi, Array.getElem?_eq_getElem hj] at hi'

@[simp] theorem size_blank : (blank size).size = size := Array.size_replicate

@[simp] theorem size_put (n : NodeLabel) : (g.put id n).size = g.size := Array.size_setIfInBounds

@[simp] theorem size_change (f : GraphNode → GraphNode) : (g.change id f).size = g.size := Array.size_modify

theorem node?_blank : (blank size).node? id = none := by
  simp only [node?, blank, Array.getElem?_replicate]
  split <;> rfl

theorem node?_put {k : Nat} (n : NodeLabel) :
    (g.put k n).node? id =
      if k = id ∧ k < g.size then some { toNodeLabel := n, predecessors := [], successors := [] }
      else g.node? id := by
  simp only [node?, put, size, Array.getElem?_setIfInBounds]
  by_cases hk : k = id
  · subst hk
    by_cases hlt : k < g.slots.size
    · simp [hlt]
    · simp [hlt]
  · simp [hk]

theorem node?_change {k : Nat} (f : GraphNode → GraphNode) :
    (g.change k f).node? id = if k = id then (g.node? id).map f else g.node? id := by
  simp only [node?, change, Array.getElem?_modify]
  split
  · cases g.slots[id]? with
    | none => rfl
    | some n => cases n <;> rfl
  · rfl

/-! ## Nodes -/

theorem blank_eq_ofArcs : blank size = ofArcs size (fun _ => none) [] := by
  refine ext_node? (by simp) fun id => ?_
  rw [node?_blank]
  by_cases hid : id < size
  · rw [node?_ofArcs hid, Option.map_none]
  · rw [node?_eq_none (by simpa using hid)]

/-- **Putting a node into a graph without arcs adds a label.** -/
theorem put_ofArcs {k : Nat} (n : NodeLabel) :
    (ofArcs size label []).put k n = ofArcs size (Function.update label k (some n)) [] := by
  refine ext_node? (by simp) fun id => ?_
  rw [node?_put, size_ofArcs]
  by_cases hid : id < size
  · rw [node?_ofArcs hid, node?_ofArcs hid]
    by_cases hk : k = id
    · subst hk
      rw [if_pos ⟨rfl, hid⟩, Function.update_self]
      rfl
    · rw [if_neg fun h => hk h.1, Function.update_of_ne (Ne.symm hk)]
      rfl
  · rw [if_neg (by rintro ⟨rfl, h⟩; exact hid h), node?_eq_none (by simpa using hid),
      node?_eq_none (by simpa using hid)]

/-- Nodes that agree with some labels are put one after the other; where none is put, the labels have to hold
already. -/
theorem foldl_put {nodes : List (Nat × NodeLabel)} {before : Nat → Option NodeLabel}
    (hput : ∀ x ∈ nodes, label x.1 = some x.2)
    (hrest : ∀ id, (∀ n, (id, n) ∉ nodes) → before id = label id) :
    nodes.foldl (fun g x => g.put x.1 x.2) (ofArcs size before []) = ofArcs size label [] := by
  induction nodes generalizing before with
  | nil => rw [List.foldl_nil, show before = label from funext fun id => hrest id fun _ => List.not_mem_nil]
  | cons x nodes ih =>
    obtain ⟨hx, hput⟩ := List.forall_mem_cons.mp hput
    rw [List.foldl_cons, put_ofArcs]
    refine ih hput fun id hid => ?_
    by_cases h : id = x.1
    · rw [h, Function.update_self, hx]
    · rw [Function.update_of_ne h]
      exact hrest id fun n hn => (List.mem_cons.mp hn).elim (fun he => h (congrArg Prod.fst he)) (hid n)

/-! ## Arcs -/

section Arcs

variable {a : Nat × Nat}

/-- One more arc stands last at its target and at its source. -/
theorem withArcs_snoc (n : NodeLabel) :
    withArcs (arcs ++ [a]) id n =
      { withArcs arcs id n with
        predecessors := (withArcs arcs id n).predecessors ++ if a.2 = id then [a.1] else []
        successors := (withArcs arcs id n).successors ++ if a.1 = id then [a.2] else [] } := by
  simp only [withArcs, List.filterMap_append, GraphNode.mk.injEq, true_and]
  constructor <;> congr 1
  · by_cases h : a.2 = id <;> simp [h]
  · by_cases h : a.1 = id <;> simp [h]

/-- **Drawing an arc adds it to the arcs that are there**, or leaves it out where it does not count. -/
theorem draw_ofArcs (hlabel : ∀ id l, label id = some l → id < size) :
    (ofArcs size label arcs).draw a = ofArcs size label (arcs ++ [a]) := by
  have hcounts : (((ofArcs size label arcs).node? a.1).isSome &&
      ((ofArcs size label arcs).node? a.2).any fun n => n.rule != .given) = accepts label a := by
    rw [node?_ofArcs_of_labels hlabel, node?_ofArcs_of_labels hlabel, accepts, Option.isSome_map, Option.any_map]
    rfl
  rw [draw, hcounts]
  by_cases ha : accepts label a = true
  · rw [if_pos ha]
    refine ext_node? (by simp) fun id => ?_
    have hfilter : (arcs ++ [a]).filter (accepts label) = arcs.filter (accepts label) ++ [a] := by
      rw [List.filter_append, List.filter_singleton, ha]
      rfl
    rw [node?_change, node?_change, node?_ofArcs_of_labels hlabel, node?_ofArcs_of_labels hlabel, hfilter]
    cases label id with
    | none => simp
    | some l =>
      simp only [Option.map_some, withArcs_snoc]
      by_cases htarget : a.2 = id <;> by_cases hsource : a.1 = id <;> simp [htarget, hsource]
  · rw [if_neg ha]
    have hfilter : (arcs ++ [a]).filter (accepts label) = arcs.filter (accepts label) := by
      rw [List.filter_append, List.filter_singleton, eq_false_of_ne_true ha]
      exact List.append_nil _
    rw [ofArcs, ofArcs, hfilter]

/-- **Arcs that are drawn one after the other are all there in the end**, as far as they count. -/
theorem foldl_draw (hlabel : ∀ id l, label id = some l → id < size) (more : List (Nat × Nat)) :
    more.foldl draw (ofArcs size label arcs) = ofArcs size label (arcs ++ more) := by
  induction more generalizing arcs with
  | nil => rw [List.foldl_nil, List.append_nil]
  | cons a more ih => rw [List.foldl_cons, draw_ofArcs hlabel, ih, List.append_assoc, List.singleton_append]

end Arcs

end AndOrGraph

/-! ## The graph of a problem -/

namespace View

variable {m : Model} {v : View} {id : Nat} {l : NodeLabel}

/-- What a slot is paired with is the label of that slot. -/
theorem map_mk_eq_some {x : Option NodeLabel} {k : Nat} :
    (x.map fun n => (k, n)) = some (id, l) ↔ x = some l ∧ k = id := by
  rw [Option.map_eq_some_iff]
  constructor
  · rintro ⟨n, hn, he⟩
    obtain ⟨rfl, rfl⟩ := Prod.mk.inj he
    exact ⟨hn, rfl⟩
  · rintro ⟨hn, rfl⟩
    exact ⟨l, hn, rfl⟩

/-- Labels are those of the components of the problem, of its operators once more, and of the goal. -/
theorem label_eq_some_iff : v.label m id = some l ↔
    (∃ c, m.HasComponent c ∧ v.componentLabel m c = some l ∧ m.idOf c = id) ∨
      ∃ k ≤ m.operators.size, v.extraLabel m k = some l ∧ m.size + k = id := by
  constructor
  · intro h
    by_cases hid : id < m.size
    · obtain ⟨c, hc⟩ := Model.exists_componentAt? hid
      obtain ⟨rfl, hhas⟩ := Model.idOf_componentAt? hc
      exact .inl ⟨c, hhas, by rw [← label_idOf hhas, h], rfl⟩
    · obtain ⟨k, rfl⟩ := Nat.exists_eq_add_of_le (Nat.le_of_not_lt hid)
      have hlt := lt_of_label h
      rw [label_size_add] at h
      refine .inr ⟨k, ?_, h, rfl⟩
      cases v <;> simp only [extraSlots] at hlt <;> omega
  · rintro (⟨c, hc, hl, rfl⟩ | ⟨k, -, hl, rfl⟩)
    · rw [label_idOf hc, hl]
    · rw [label_size_add, hl]

/-! ## Stored ids are those of the positions -/

section Stored

variable (hw : m.WellFormed)
include hw

theorem placeOf?_eq {c : Component} (hc : m.HasComponent c) : placeOf? m c = some (m.idOf c) := by
  obtain ⟨x, hx⟩ := Model.exists_item? hc
  have hid : (m.item? c).map (·.id) = some (m.idOf c) := by rw [hx, Option.map_some, hw.stored c x hx]
  cases c with
  | fact f => rfl
  | operator _ | compound _ | method _ => exact hid

theorem componentNode?_eq_some_iff {c : Component} (hc : m.HasComponent c) :
    v.componentNode? m c = some (id, l) ↔ v.componentLabel m c = some l ∧ m.idOf c = id := by
  rw [componentNode?, placeOf?_eq hw hc, Option.bind_some, map_mk_eq_some]

/-- **Every label is put, and nothing else.** -/
theorem mem_nodes : (id, l) ∈ v.nodes m ↔ v.label m id = some l := by
  simp only [label_eq_some_iff, nodes, extraNode?, List.mem_append, List.mem_filterMap, List.mem_flatMap,
    List.mem_range, Option.mem_toList, map_mk_eq_some]
  constructor
  · rintro ((((⟨f, hf, h⟩ | ⟨i, hi, h | h⟩) | ⟨a, ha, h⟩) | ⟨d, hd, h⟩) | h)
    · exact .inl ⟨.fact f, hf, (componentNode?_eq_some_iff hw (c := .fact f) hf).mp h⟩
    · exact .inl ⟨.operator i, hi, (componentNode?_eq_some_iff hw (c := .operator i) hi).mp h⟩
    · exact .inr ⟨i, Nat.le_of_lt hi, h⟩
    · exact .inl ⟨.compound a, ha, (componentNode?_eq_some_iff hw (c := .compound a) ha).mp h⟩
    · exact .inl ⟨.method d, hd, (componentNode?_eq_some_iff hw (c := .method d) hd).mp h⟩
    · exact .inr ⟨_, Nat.le_refl _, h⟩
  · rintro (⟨c, hc, h⟩ | ⟨k, hk, h⟩)
    · have hnode := (componentNode?_eq_some_iff hw hc).mpr h
      cases c with
      | fact f => exact .inl (.inl (.inl (.inl ⟨f, hc, hnode⟩)))
      | operator i => exact .inl (.inl (.inl (.inr ⟨i, hc, .inl hnode⟩)))
      | compound a => exact .inl (.inl (.inr ⟨a, hc, hnode⟩))
      | method d => exact .inl (.inr ⟨d, hc, hnode⟩)
    · obtain hlt | rfl := Nat.lt_or_eq_of_le hk
      · exact .inl (.inl (.inl (.inr ⟨k, hlt, .inr h⟩)))
      · exact .inr h

omit hw in
/-- What is read off the members of an array may be read off them and their positions. -/
theorem flatMap_eq_flatMap_zipIdx {α β : Type} {xs : Array α} {f : α → List β} {g : α × Nat → List β}
    (h : ∀ (i : Nat) (x : α), xs[i]? = some x → f x = g (x, i)) : xs.toList.flatMap f = xs.toList.zipIdx.flatMap g := by
  calc xs.toList.flatMap f = (xs.toList.zipIdx.map Prod.fst).flatMap f := by rw [List.zipIdx_map_fst]
    _ = xs.toList.zipIdx.flatMap fun x => f x.1 := List.flatMap_map ..
    _ = xs.toList.zipIdx.flatMap g := List.flatMap_congr fun x hx => h x.2 x.1 (mem_zipIdx.mp hx)

/-- **The arcs that are drawn are the arcs of the view.** -/
theorem strokes_eq_arcs : v.strokes m = v.arcs m := by
  have ho : ∀ (i : Nat) (o : Operator), m.operators[i]? = some o → o.id = m.operatorId i := fun i o ho =>
    hw.stored (.operator i) (.operator o) (Model.item?_operator ho)
  have hd : ∀ (i : Nat) (d : Method), m.methods[i]? = some d → d.id = m.methodId i := fun i d hd =>
    hw.stored (.method i) (.method d) (Model.item?_method hd)
  unfold strokes arcs factArcs
  refine congrArg₂ (· ++ ·) (congrArg₂ (· ++ ·) ?_ ?_) ?_
  · split
    · exact congrArg₂ (· ++ ·)
        (flatMap_eq_flatMap_zipIdx fun i o h => congrArg (operatorArcs · o) (ho i o h))
        (flatMap_eq_flatMap_zipIdx fun i d h => congrArg (methodPreArcs · d) (hd i d h))
    · rfl
  · exact flatMap_eq_flatMap_zipIdx fun i d h => congrArg (v.methodArcs m · d) (hd i d h)
  · rw [List.range_eq_range', ← Array.length_toList, ← List.zipIdx_map_snd 0 m.operators.toList, List.flatMap_map]
    exact List.flatMap_congr fun x hx => congrArg (v.recompositionArcs m x.2) (ho x.2 x.1 (mem_zipIdx.mp hx))

/-- **The graph that is drawn is the graph of the problem**: no arc that counts is drawn before its nodes are
put. -/
theorem drawn_eq_graph (v : View) : v.drawn m = v.graph m := by
  have hput : ∀ x ∈ v.nodes m, v.label m x.1 = some x.2 := fun _ hx => (mem_nodes hw).mp hx
  have hrest : ∀ id, (∀ n, (id, n) ∉ v.nodes m) → none = v.label m id := fun id hid =>
    (Option.eq_none_iff_forall_ne_some.mpr fun n hn => hid n ((mem_nodes hw).mpr hn)).symm
  rw [drawn, AndOrGraph.blank_eq_ofArcs, AndOrGraph.foldl_put hput hrest,
    AndOrGraph.foldl_draw fun _ _ => lt_of_label, List.nil_append, strokes_eq_arcs hw, graph]

end Stored

end View

end HierPlan
