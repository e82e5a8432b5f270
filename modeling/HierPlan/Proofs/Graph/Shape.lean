import HierPlan.Proofs.Graph.Drawing
import HierPlan.Proofs.Graph.Range

/-!
# Proofs/Graph/Shape — the nodes of a graph, and every arc between them

    p ──▸ s      s among the successors of p  =  p among the predecessors of s,   equally often

What was put and drawn one after the other has the shape that its view asks for (`View.Shape`): the slots that hold
nodes are those the view has nodes for, arcs join nodes and are listed at both ends, nothing comes in to a node that is
given, and **what comes in to any other node is its line of the table** (`View.Slot.incoming`), neither more nor less
often.  So it is for **every problem that was built, and in every view** (`View.shape_of_build`).
-/

namespace HierPlan

namespace View

variable {m : Model} {v : View}

/-! ## Slots and their labels -/

namespace Slot

variable {s : Slot} {l : NodeLabel}

/-- What the node in a slot stands for. -/
def kind : Slot → NodeKind
  | component (.fact _) => .fact
  | component (.operator _) => .operator
  | component (.compound _) => .compound
  | component (.method _) => .method
  | recomposition _ => .recomposition
  | goal => .goal

/-- Whether a view has a node in a slot. -/
def Present (v : View) : Slot → Prop
  | component (.fact _) => v.hasFacts = true
  | component _ => True
  | recomposition _ => v = .topDown ∨ v = .composition
  | goal => v = .composition

/-- Whether the node in a slot is given: a fact of the start, or where tasks feed their methods, a task of the
start. -/
def Given (m : Model) (v : View) : Slot → Prop
  | component (.fact f) => (v = .bottomUp ∨ v = .topDown) ∧ f ∈ m.init
  | component (.compound a) => v = .topDown ∧ .compound a ∈ m.network
  | recomposition i => v = .topDown ∧ .operator i ∈ m.network
  | _ => False

/-- The label of the node in a slot. -/
def label? (m : Model) (v : View) : Slot → Option NodeLabel
  | component c => v.componentLabel m c
  | recomposition i => v.extraLabel m i
  | goal => v.extraLabel m m.operators.size

theorem label_id (hs : s.Known m) : v.label m (s.id m) = s.label? m v := by
  match s with
  | component c => exact label_idOf hs
  | recomposition i => exact label_size_add i
  | goal => exact label_size_add _

/-- Labels are for slots. -/
theorem exists_of_label {id : Nat} (h : v.label m id = some l) : ∃ s : Slot, s.Known m ∧ s.id m = id := by
  obtain ⟨c, hc, -, rfl⟩ | ⟨k, hk, -, rfl⟩ := label_eq_some_iff.mp h
  · exact ⟨.component c, hc, rfl⟩
  · obtain hlt | rfl := Nat.lt_or_eq_of_le hk
    · exact ⟨.recomposition k, hlt, rfl⟩
    · exact ⟨.goal, trivial, rfl⟩

theorem isSome_label?_iff (hs : s.Known m) : (s.label? m v).isSome = true ↔ s.Present v := by
  match s with
  | component (.fact f) =>
    simp only [label?, componentLabel, Present]
    split <;> simp_all
  | component (.operator _) | component (.compound _) | component (.method _) => exact iff_of_true rfl trivial
  | recomposition i =>
    have hi : i < m.operators.size := hs
    cases v <;> simp [label?, extraLabel, Present, hi]
  | goal => cases v <;> simp [label?, extraLabel, Present]

theorem taskRule_eq_given_iff (t : Task) : v.taskRule m t = .given ↔ v = .topDown ∧ t ∈ m.network := by
  unfold taskRule
  split <;> simp_all

/-- **A label tells what a slot stands for and whether it is given**, and only those of operators weigh anything. -/
theorem spec_of_label? (hs : s.Known m) (h : s.label? m v = some l) :
    l.kind = s.kind ∧ (l.rule = .given ↔ s.Given m v) ∧ (l.weight ≠ 0 → l.kind = .operator) := by
  have hall : Rule.all ≠ .given := Rule.noConfusion
  cases s with
  | component c =>
    cases c with
    | fact f =>
      simp only [label?, componentLabel] at h
      split at h
      · cases h
        refine ⟨rfl, ?_, absurd rfl⟩
        cases v <;> simp [Given, givesFacts, IdSet.mem_def]
      · cases h
    | operator i =>
      cases h
      exact ⟨rfl, iff_of_false hall not_false, fun _ => rfl⟩
    | compound a =>
      cases h
      exact ⟨rfl, taskRule_eq_given_iff _, absurd rfl⟩
    | method i =>
      cases h
      exact ⟨rfl, iff_of_false hall not_false, absurd rfl⟩
  | recomposition i =>
    have hi : i < m.operators.size := hs
    cases v with
    | bottomUp | decomposition w => cases h
    | topDown =>
      rw [label?, extraLabel, if_pos hi] at h
      cases h
      exact ⟨rfl, taskRule_eq_given_iff _, absurd rfl⟩
    | composition =>
      rw [label?, extraLabel, if_pos hi] at h
      cases h
      exact ⟨rfl, by simp [Given], absurd rfl⟩
  | goal =>
    cases v with
    | bottomUp | decomposition w => cases h
    | topDown =>
      rw [label?, extraLabel, if_neg (Nat.lt_irrefl _)] at h
      cases h
    | composition =>
      rw [label?, extraLabel, if_neg (Nat.lt_irrefl _), if_pos rfl] at h
      cases h
      exact ⟨rfl, iff_of_false hall not_false, absurd rfl⟩

end Slot

/-! ## The shape of a graph -/

/-- The nodes that a view has of a problem, and every arc between them. -/
structure Shape (m : Model) (v : View) (g : AndOrGraph) : Prop where
  /-- Both ends of an arc list it equally often. -/
  mirrored : ∀ p s n k, g.node? p = some n → g.node? s = some k → n.successors.count s = k.predecessors.count p
  /-- Both ends of an arc hold a node. -/
  joined : g.Joined
  /-- Slots hold a node where the view has one. -/
  present : ∀ s : Slot, s.Known m → ((∃ n, g.node? (s.id m) = some n) ↔ s.Present v)
  /-- There are no other nodes. -/
  placed : ∀ id n, g.node? id = some n → ∃ s : Slot, s.Known m ∧ s.id m = id
  kind : ∀ s : Slot, s.Known m → ∀ n, g.node? (s.id m) = some n → n.kind = s.kind
  given : ∀ s : Slot, s.Known m → ∀ n, g.node? (s.id m) = some n → (n.rule = .given ↔ s.Given m v)
  /-- Nothing comes in to a node that is given. -/
  outermost : ∀ id n, g.node? id = some n → n.rule = .given → n.predecessors = []
  /-- Only operators weigh anything. -/
  weighted : ∀ id n, g.node? id = some n → n.weight ≠ 0 → n.kind = .operator
  /-- What comes in to any other node, neither more nor less often. -/
  incoming : ∀ s : Slot, s.Known m → ∀ n, g.node? (s.id m) = some n → n.rule ≠ .given →
    n.predecessors = s.incoming m v

/-- **The graph of a well-formed problem has the shape of its view.** -/
theorem shape_graph (hw : m.WellFormed) (v : View) : v.Shape m (v.graph m) := by
  have hlabel : ∀ {s : Slot} {n : GraphNode}, s.Known m → (v.graph m).node? (s.id m) = some n →
      s.label? m v = some n.toNodeLabel := fun hs hn => (Slot.label_id hs).symm.trans (label_of_node? hn)
  have hplaced : ∀ id n, (v.graph m).node? id = some n → ∃ s : Slot, s.Known m ∧ s.id m = id := fun id n hn =>
    Slot.exists_of_label (label_of_node? hn)
  refine ⟨fun p s n k hn hk => ?_, (inRange hw v).joined, fun s hs => ?_, hplaced,
    fun s hs n hn => (Slot.spec_of_label? hs (hlabel hs hn)).1,
    fun s hs n hn => (Slot.spec_of_label? hs (hlabel hs hn)).2.1,
    fun id n => AndOrGraph.predecessors_of_given, fun id n hn => ?_,
    fun s hs n hn hr => (predecessors_eq hw hn hr).trans (Slot.sources_arcs hw hs)⟩
  · have hcount := count_outOf (m := m) (v := v) p s
    rwa [outOf, into, hn, hk] at hcount
  · rw [← Slot.isSome_label?_iff hs, ← Slot.label_id hs, Option.isSome_iff_exists]
    exact ⟨fun ⟨n, hn⟩ => ⟨_, label_of_node? hn⟩, fun ⟨l, hl⟩ => let ⟨n, hn, _⟩ := exists_node hl; ⟨n, hn⟩⟩
  · obtain ⟨s, hs, rfl⟩ := hplaced id n hn
    exact (Slot.spec_of_label? hs (hlabel hs hn)).2.2

/-- **What is drawn of a problem that was built has the shape of its view**, whatever the view, and it is the graph
of the problem. -/
theorem shape_of_build {d : Draft} (h : d.build = .ok m) (v : View) :
    v.drawn m = v.graph m ∧ v.Shape m (v.drawn m) := by
  have hw := Draft.wellFormed_of_build h
  have hdrawn := drawn_eq_graph hw v
  exact ⟨hdrawn, hdrawn ▸ shape_graph hw v⟩

end View

/-! ## A task asked for twice -/

/-- A candle that is lit by striking two matches, one after the other; the box of matches is full at the start and
stays so. -/
def Draft.candle : Draft where
  facts := #["matches", "lit"]
  operators := #[⟨"strike", 4, [0], [], [1, 0], []⟩]
  compounds := #["light"]
  methods := #[⟨"strike-twice", 0, [], [], [.operator 0, .operator 0]⟩]
  init := [0]
  goal := [1]
  network := [.compound 0]

/-- The candle as built. -/
def Model.candle : Model where
  facts := #[⟨0, "matches"⟩, ⟨1, "lit"⟩]
  operators := #[⟨2, "strike", 4, .ofList 2 [0], .ofList 2 [], .ofList 2 [1, 0], .ofList 2 []⟩]
  compounds := #[⟨3, "light", [0]⟩]
  methods := #[⟨4, "strike-twice", 0, .ofList 2 [], .ofList 2 [], [.operator 0, .operator 0]⟩]
  init := .ofList 2 [0]
  goal := .ofList 2 [1]
  network := [.compound 0]

/-- Where tasks feed their methods, the method comes in to the recomposition node of the match twice, and the node is
listed twice with the method.  Nothing comes in to the matches, though striking one leaves the box full. -/
theorem View.shape_of_build_candle :
    Draft.candle.build = .ok .candle ∧
      ∃ f n d, (View.topDown.drawn .candle).node? 0 = some f ∧ (View.topDown.drawn .candle).node? 5 = some n ∧
        (View.topDown.drawn .candle).node? 4 = some d ∧ f.predecessors = [] ∧ n.kind = .recomposition ∧
        n.predecessors = [4, 4] ∧ d.successors.count 5 = 2 := by
  have hbuild : Draft.candle.build = .ok .candle := rfl
  obtain ⟨-, hshape⟩ := View.shape_of_build hbuild .topDown
  have hmatches : (View.Slot.component (.fact 0)).Known .candle := Nat.zero_lt_two
  have hstrike : (View.Slot.recomposition 0).Known .candle := Nat.zero_lt_one
  have hmethod : (View.Slot.component (.method 0)).Known .candle := Nat.zero_lt_one
  obtain ⟨f, hf⟩ := (hshape.present _ hmatches).mpr rfl
  obtain ⟨n, hn⟩ := (hshape.present _ hstrike).mpr (.inl rfl)
  obtain ⟨d, hd⟩ := (hshape.present _ hmethod).mpr trivial
  have hgiven : f.rule = .given := (hshape.given _ hmatches f hf).mpr ⟨.inr rfl, by decide⟩
  have hopen : n.rule ≠ .given := fun h => absurd ((hshape.given _ hstrike n hn).mp h).2 (by decide)
  have htwice : n.predecessors = [4, 4] := hshape.incoming _ hstrike n hn hopen
  have hcount : d.successors.count 5 = n.predecessors.count 4 := hshape.mirrored _ _ d n hd hn
  rw [htwice] at hcount
  exact ⟨hbuild, f, n, d, hf, hn, hd, hshape.outermost _ f hf hgiven, hshape.kind _ hstrike n hn, htwice, hcount⟩

end HierPlan
