import HierPlan.Proofs.Graph.Passage

/-!
# Proofs/Graph/Range — references that lead somewhere keep doing so

    start ──move──▸ … ──move──▸ s           state: as wide as facts,  tasks: all of the problem
    p ──▸ id ──▸ s                          p, id and s all hold a node

What is known of a problem when it is built goes over to everything that is read off it.  **No path leads out of
the problem** (`Path.known`), and in every view of it **nodes are put into slots that are there and arcs join
nodes** (`View.inRange`), in spite of the slots past the components that some views have and others have not.
-/

namespace HierPlan

variable {m : Model}

/-! ## Situations -/

/-- The state is as wide as the problem has facts, and every open task is one of the problem. -/
structure Situation.Known (m : Model) (s : Situation) : Prop where
  width : s.state.width = m.facts.size
  tasks : ∀ t ∈ s.network, m.HasTask t

/-- Whether the problem has the operator or the method of a transition. -/
def Transition.Known (m : Model) : Transition → Prop
  | .operator i => i < m.operators.size
  | .method d => d < m.methods.size

section Moves

variable {s t : Situation} {v : Move} {moves : List Move}

theorem Model.WellFormed.known_start (hw : m.WellFormed) : m.start.Known m := ⟨hw.init, hw.network⟩

/-- **Moves lead from situations of the problem to situations of the problem.** -/
theorem Situation.Known.next (hw : m.WellFormed) (hs : s.Known m) (hv : v ∈ s.moves m) : v.next.Known m := by
  refine ⟨(Situation.width_next hv).trans hs.width, fun t ht => ?_⟩
  cases Situation.moved hw hv with
  | operator => exact hs.tasks t (List.mem_cons_of_mem _ ht)
  | @method _ _ d y known =>
    rcases List.mem_append.mp ht with ht | ht
    · exact (hw.methods d y known).network t ht
    · exact hs.tasks t (List.mem_cons_of_mem _ ht)

/-- What a move applies or uses is there. -/
theorem Situation.known_transition (hw : m.WellFormed) (hv : v ∈ s.moves m) : v.transition.Known m := by
  cases Situation.moved hw hv with
  | operator known => exact (Array.getElem?_eq_some_iff.mp known).1
  | method known => exact (Array.getElem?_eq_some_iff.mp known).1

/-- **No path leads out of the problem.** -/
theorem Path.known (hw : m.WellFormed) (h : Path m s moves t) (hs : s.Known m) : t.Known m := by
  induction h with
  | stay => exact hs
  | step first _ ih => exact ih (hs.next hw first)

/-- What is looked up to find the moves of a situation is there: the operator in front, or the task in front and
all the methods that it lists.  So is what a move names. -/
structure Situation.InRange (m : Model) (s : Situation) : Prop where
  operator : ∀ i rest, s.network = .operator i :: rest → ∃ o, m.operators[i]? = some o
  compound : ∀ a rest, s.network = .compound a :: rest →
    ∃ x, m.compounds[a]? = some x ∧ ∀ d ∈ x.methods, ∃ y, m.methods[d]? = some y
  transitions : ∀ v ∈ s.moves m, v.transition.Known m

theorem Situation.Known.inRange (hw : m.WellFormed) (hs : s.Known m) : s.InRange m := by
  refine ⟨fun i rest hnet => ?_, fun a rest hnet => ?_, fun v hv => Situation.known_transition hw hv⟩
  · have hi : i < m.operators.size := hs.tasks (.operator i) (hnet ▸ List.mem_cons_self)
    exact ⟨_, Array.getElem?_eq_getElem hi⟩
  · have ha : a < m.compounds.size := hs.tasks (.compound a) (hnet ▸ List.mem_cons_self)
    refine ⟨_, Array.getElem?_eq_getElem ha, fun d hd => ?_⟩
    obtain ⟨y, hy, -⟩ := (hw.listed a _ (Array.getElem?_eq_getElem ha) d).mp hd
    exact ⟨y, hy⟩

/-- The id of a task of the problem is one of its ids. -/
theorem Model.taskId_lt_size {t : Task} (ht : m.HasTask t) : m.taskId t < m.size := by
  cases t <;> exact View.idOf_lt_size ht

end Moves

/-! ## Graphs -/

namespace AndOrGraph

variable {g : AndOrGraph} {id : Nat} {n : GraphNode}

/-- Both ends of every arc hold a node. -/
structure Joined (g : AndOrGraph) : Prop where
  predecessors : ∀ id n, g.node? id = some n → ∀ p ∈ n.predecessors, ∃ q, g.node? p = some q
  successors : ∀ id n, g.node? id = some n → ∀ s ∈ n.successors, ∃ q, g.node? s = some q

theorem Joined.lt_size (h : g.Joined) (hn : g.node? id = some n) {p : Nat} (hp : p ∈ n.predecessors) :
    p < g.size :=
  let ⟨_, hq⟩ := h.predecessors id n hn p hp
  lt_size_of_node? hq

/-- **A graph that is drawn with labels for its own slots only is joined**: other arcs do not count. -/
theorem joined_ofArcs {size : Nat} {label : Nat → Option NodeLabel} {arcs : List (Nat × Nat)}
    (hlabel : ∀ id l, label id = some l → id < size) : (ofArcs size label arcs).Joined := by
  have held : ∀ {id : Nat}, (label id).isSome = true → ∃ q, (ofArcs size label arcs).node? id = some q := by
    intro id h
    obtain ⟨l, hl⟩ := Option.isSome_iff_exists.mp h
    exact ⟨_, by rw [node?_ofArcs (hlabel id l hl), hl, Option.map_some]⟩
  refine ⟨fun id n hn p hp => held ?_, fun id n hn s hs => held ?_⟩ <;> obtain ⟨l, hl, rfl⟩ := exists_of_node?_ofArcs hn
  · have harc := (List.mem_filter.mp (mem_sources.mp hp)).2
    rw [accepts, Bool.and_eq_true] at harc
    exact harc.1
  · obtain ⟨⟨q, r⟩, harc, he⟩ := List.mem_filterMap.mp hs
    have haccepts := (List.mem_filter.mp harc).2
    split at he
    · obtain rfl := Option.some.inj he
      rw [accepts, Bool.and_eq_true] at haccepts
      exact Option.isSome_of_any haccepts.2
    · cases he

end AndOrGraph

namespace View

variable {v : View}

/-- Nodes are put into slots that are there, arcs are drawn between slots that are labelled, and those of the
graph join nodes. -/
structure InRange (m : Model) (v : View) : Prop where
  slots : ∀ id l, v.label m id = some l → id < (v.graph m).size
  arcs : ∀ p s, (p, s) ∈ v.arcs m → (v.label m p).isSome = true ∧ (v.label m s).isSome = true
  joined : (v.graph m).Joined

/-- **Nothing is drawn past the end of a graph.** -/
theorem inRange (hw : m.WellFormed) (v : View) : v.InRange m := by
  refine ⟨fun id l hl => ?_, fun p s h => isSome_label_of_feeds hw (mem_arcs.mp h),
    AndOrGraph.joined_ofArcs fun id l hl => lt_of_label hl⟩
  rw [graph, AndOrGraph.size_ofArcs]
  exact lt_of_label hl

/-- Without slots past the components, a graph has a slot for each id. -/
theorem size_graph_bottomUp : (bottomUp.graph m).size = m.size := AndOrGraph.size_ofArcs ..

theorem size_graph_decomposition (w : Weighting) : ((decomposition w).graph m).size = m.size :=
  AndOrGraph.size_ofArcs ..

end View

end HierPlan
