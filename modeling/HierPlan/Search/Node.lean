import HierPlan.Heuristic.LandmarkCount

/-!
# Search/Node — the nodes of a search

A search keeps its nodes in an array, its *arena*, and names each by its position there.  Every node
but the root names its parent, which stands before it, so a walk along parents ends; `planTo` reads
off the operators on the way.
-/

namespace HierPlan

/-- A situation, how it was reached, and what it was estimated at. -/
structure Node (α : Type) where
  situation : Situation
  /-- Position of the node this one was reached from; none for the root. -/
  parent : Option Nat
  /-- What led here; nothing for the root. -/
  transition : Option Transition
  /-- The cost so far. -/
  g : Nat
  /-- The estimate of what is still to come. -/
  h : α
  /-- Cost so far plus estimate. -/
  f : α
  /-- When it was generated, counted among all nodes. -/
  sequence : Nat
  /-- Transitions from the root. -/
  depth : Nat
  /-- What the heuristic has noted here. -/
  marks : Option Marks

namespace Node

variable {α : Type} [Scale α]

/-- The root of a search; its total is the estimate itself. -/
def root (s : Situation) (e : Estimate α) : Node α where
  situation := s
  parent := none
  transition := none
  g := 0
  h := e.value
  f := e.value
  sequence := 0
  depth := 0
  marks := e.marks

/-- Where a move leads from the node `n` at position `i`. -/
def child (n : Node α) (i : Nat) (move : Move) (e : Estimate α) (sequence : Nat) : Node α where
  situation := move.next
  parent := some i
  transition := some move.transition
  g := n.g + move.cost
  h := e.value
  f := Scale.add (Scale.ofNat (n.g + move.cost)) e.value
  sequence
  depth := n.depth + 1
  marks := e.marks

end Node

/-- The arena with the marks of the node at a position let go. -/
@[noinline] def forgetMarks {α : Type} (nodes : Array (Node α)) (i : Nat) : Array (Node α) :=
  nodes.modify i fun n => { n with marks := none }

/-- The operator a transition applies, if it applies one. -/
def Transition.operator? : Transition → Option Nat
  | .operator i => some i
  | .method _ => none

/-- The transitions from the root to the node at a position, put before `after`. -/
def transitionsTo {α : Type} (nodes : Array (Node α)) (i : Nat) (after : List Transition) :
    List Transition :=
  match nodes[i]? with
  | none => after
  | some n =>
    let path := n.transition.toList ++ after
    match n.parent with
    | none => path
    | some p => if p < i then transitionsTo nodes p path else path
termination_by i

/-- The operators applied on the way to the node at a position, in order. -/
def planTo {α : Type} (nodes : Array (Node α)) (i : Nat) : List Nat :=
  (transitionsTo nodes i []).filterMap Transition.operator?

end HierPlan
