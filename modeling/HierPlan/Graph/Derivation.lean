import HierPlan.Graph.Basic

/-!
# Graph/Derivation — how the nodes of a graph are derived, and at what weight

A `Forest g join roots w` derives every node of the list `roots`: a given node stands for itself, a
node that needs any predecessor is derived through one of them, and a node that needs all of them
through all, repetitions included.  Its weight `w` adds the weight of each node that needs all its
predecessors to that of the forest below it, and `join` puts the weights of siblings together:

    join = (· + ·)   the weights of all nodes of the forest
    join = max       the weights along its heaviest branch

A node without any forest is not derivable, and **derivable nodes are the least set closed under the
rules** (`derivable_of_closed`, `derivable_given`, `derivable_any`, `derivable_all`); cycles of the graph
are no exception, since a forest is finite.
-/

namespace HierPlan

namespace AndOrGraph

/-- A finite derivation of every listed node, with its weight. -/
inductive Forest (g : AndOrGraph) (join : Nat → Nat → Nat) : List Nat → Nat → Prop where
  /-- Nothing to derive. -/
  | nil : Forest g join [] 0
  /-- A given node weighs nothing. -/
  | given {id : Nat} {n : GraphNode} {rest : List Nat} {w : Nat}
      (here : g.node? id = some n) (rule : n.rule = .given) (others : Forest g join rest w) :
      Forest g join (id :: rest) (join 0 w)
  /-- Through one predecessor, at its weight. -/
  | any {id p : Nat} {n : GraphNode} {rest : List Nat} {v w : Nat}
      (here : g.node? id = some n) (rule : n.rule = .any) (listed : p ∈ n.predecessors)
      (below : Forest g join [p] v) (others : Forest g join rest w) :
      Forest g join (id :: rest) (join v w)
  /-- Through all predecessors, at its own weight on top of theirs. -/
  | all {id : Nat} {n : GraphNode} {rest : List Nat} {v w : Nat}
      (here : g.node? id = some n) (rule : n.rule = .all)
      (below : Forest g join n.predecessors v) (others : Forest g join rest w) :
      Forest g join (id :: rest) (join (n.weight + v) w)

/-- Whether a node has a finite derivation. -/
def Derivable (g : AndOrGraph) (id : Nat) : Prop := ∃ w, g.Forest (· + ·) [id] w

/-- The graph with one slot emptied. -/
def without (g : AndOrGraph) (id : Nat) : AndOrGraph := ⟨g.slots.setIfInBounds id none⟩

variable {g : AndOrGraph} {join : Nat → Nat → Nat}

/-- A forest of a single tree carries over to the front of any other forest. -/
theorem exists_forest_cons {id : Nat} {rest : List Nat} (h : ∃ v, g.Forest join [id] v)
    (k : ∃ w, g.Forest join rest w) : ∃ w, g.Forest join (id :: rest) w := by
  obtain ⟨_, h⟩ := h
  obtain ⟨_, k⟩ := k
  cases h with
  | given here rule => exact ⟨_, .given here rule k⟩
  | any here rule listed below => exact ⟨_, .any here rule listed below k⟩
  | all here rule below => exact ⟨_, .all here rule below k⟩

/-- A single tree in front of a forest adds its weight. -/
theorem Forest.cons (hjoin : ∀ w, join w 0 = w) {id v w : Nat} {rest : List Nat} (h : g.Forest join [id] v)
    (k : g.Forest join rest w) : g.Forest join (id :: rest) (join v w) := by
  cases h with
  | given here rule others =>
    cases others
    rw [hjoin]
    exact .given here rule k
  | any here rule listed below others =>
    cases others
    rw [hjoin]
    exact .any here rule listed below k
  | all here rule below others =>
    cases others
    rw [hjoin]
    exact .all here rule below k

/-- Trees make a forest of their weights together. -/
theorem forest_of_trees (hjoin : ∀ w, join w 0 = w) {roots : List Nat} {weight : Nat → Nat}
    (h : ∀ id ∈ roots, g.Forest join [id] (weight id)) :
    g.Forest join roots ((roots.map weight).foldr join 0) := by
  induction roots with
  | nil => exact .nil
  | cons id rest ih =>
    obtain ⟨first, others⟩ := List.forall_mem_cons.1 h
    exact first.cons hjoin (ih others)

/-- **A list has a forest exactly if each of its nodes has a tree.** -/
theorem exists_forest_iff {roots : List Nat} :
    (∃ w, g.Forest join roots w) ↔ ∀ id ∈ roots, ∃ w, g.Forest join [id] w := by
  constructor
  · rintro ⟨w, h⟩
    induction h with
    | nil => exact fun _ h => absurd h List.not_mem_nil
    | given here rule _ others =>
      exact List.forall_mem_cons.2 ⟨⟨_, .given here rule .nil⟩, others⟩
    | any here rule listed below _ _ others =>
      exact List.forall_mem_cons.2 ⟨⟨_, .any here rule listed below .nil⟩, others⟩
    | all here rule below _ _ others =>
      exact List.forall_mem_cons.2 ⟨⟨_, .all here rule below .nil⟩, others⟩
  · induction roots with
    | nil => exact fun _ => ⟨0, .nil⟩
    | cons id rest ih =>
      intro h
      obtain ⟨first, others⟩ := List.forall_mem_cons.1 h
      exact exists_forest_cons first (ih others)

theorem derivable_given {id : Nat} {n : GraphNode} (here : g.node? id = some n)
    (rule : n.rule = .given) : g.Derivable id := ⟨_, .given here rule .nil⟩

theorem derivable_any {id p : Nat} {n : GraphNode} (here : g.node? id = some n)
    (rule : n.rule = .any) (listed : p ∈ n.predecessors) (h : g.Derivable p) :
    g.Derivable id := by
  obtain ⟨_, below⟩ := h
  exact ⟨_, .any here rule listed below .nil⟩

theorem derivable_all {id : Nat} {n : GraphNode} (here : g.node? id = some n)
    (rule : n.rule = .all) (h : ∀ p ∈ n.predecessors, g.Derivable p) : g.Derivable id := by
  obtain ⟨_, below⟩ := exists_forest_iff.2 h
  exact ⟨_, .all here rule below .nil⟩

/-- **Whatever is closed under the rules holds of every derivable node.** -/
theorem derivable_of_closed {closed : Nat → Prop}
    (given : ∀ id n, g.node? id = some n → n.rule = .given → closed id)
    (any : ∀ id n, g.node? id = some n → n.rule = .any → ∀ p ∈ n.predecessors, closed p → closed id)
    (all : ∀ id n, g.node? id = some n → n.rule = .all → (∀ p ∈ n.predecessors, closed p) →
      closed id)
    {id : Nat} (h : g.Derivable id) : closed id := by
  obtain ⟨w, h⟩ := h
  suffices ∀ {roots w}, g.Forest (· + ·) roots w → ∀ p ∈ roots, closed p from
    this h id (List.mem_singleton.2 rfl)
  intro roots w h
  induction h with
  | nil => exact fun _ h => absurd h List.not_mem_nil
  | given here rule _ others => exact List.forall_mem_cons.2 ⟨given _ _ here rule, others⟩
  | any here rule listed _ _ below others =>
    exact List.forall_mem_cons.2
      ⟨any _ _ here rule _ listed (below _ (List.mem_singleton.2 rfl)), others⟩
  | all here rule _ _ below others =>
    exact List.forall_mem_cons.2 ⟨all _ _ here rule below, others⟩

end AndOrGraph

end HierPlan
