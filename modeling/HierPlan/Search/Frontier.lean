import HierPlan.Config
import HierPlan.Queue.Heap
import HierPlan.Queue.Line
import HierPlan.Search.Node

/-!
# Search/Frontier — the nodes still to be looked at

Informed searches keep a heap ordered by two numbers and then by age: least total first, then least
estimate; or least estimate first, then least cost so far.  Blind searches keep two lines, one for
nodes that brought something new, which are served first.  Either way every node that goes in comes
out once.
-/

namespace HierPlan

/-- A node's position and what it is ranked by. -/
structure Ranked (α : Type) where
  primary : α
  secondary : α
  sequence : Nat
  position : Nat

/-- The order of two ranked nodes: both numbers, then age. -/
def Ranked.compare {α : Type} [Scale α] (a b : Ranked α) : Ordering :=
  ((Scale.compare a.primary b.primary).then (Scale.compare a.secondary b.secondary)).then
    (Ord.compare a.sequence b.sequence)

/-- Whether `a` is served before `b`. -/
def Ranked.before {α : Type} [Scale α] (a b : Ranked α) : Bool := a.compare b == .lt

/-- The two numbers nodes are ranked by. -/
inductive Ranking where
  /-- Total, then estimate. -/
  | total
  /-- Estimate, then cost so far. -/
  | estimate
  deriving DecidableEq, Repr

/-- Which end of a line is served. -/
inductive Service where
  | oldest
  | newest
  deriving DecidableEq, Repr

/-- Serves one end of a line. -/
def Service.pop? (s : Service) (l : Line Nat) : Option (Nat × Line Nat) :=
  match s with
  | .oldest => l.popOldest?
  | .newest => l.popNewest?

/-- The positions of the nodes still to be looked at. -/
inductive Frontier (α : Type) where
  /-- The best node first. -/
  | ranked (ranking : Ranking) (heap : Heap (Ranked α))
  /-- Nodes with something new first, one end of each line. -/
  | lines (service : Service) (novel rest : Line Nat)

namespace Frontier

variable {α : Type} [Scale α]

/-- The empty frontier of a kind of search. -/
def empty : SearchKind → Frontier α
  | .aStar => .ranked .total .empty
  | .greedyBestFirst => .ranked .estimate .empty
  | .breadthFirst => .lines .oldest {} {}
  | .depthFirst => .lines .newest {} {}

/-- What a node at a position is ranked by. -/
def rank (ranking : Ranking) (position : Nat) (n : Node α) : Ranked α :=
  match ranking with
  | .total => ⟨n.f, n.h, n.sequence, position⟩
  | .estimate => ⟨n.h, Scale.ofNat n.g, n.sequence, position⟩

/-- The frontier with a node put in; only lines care whether it brought something new. -/
def push (q : Frontier α) (position : Nat) (n : Node α) (novel : Bool) : Frontier α :=
  match q with
  | .ranked r heap => .ranked r (heap.push Ranked.before (rank r position n))
  | .lines service fresh rest =>
    if novel then .lines service (fresh.push position) rest
    else .lines service fresh (rest.push position)

/-- The position of the node that is next, and the frontier without it. -/
def pop? (q : Frontier α) : Option (Nat × Frontier α) :=
  match q with
  | .ranked r heap => (heap.pop? Ranked.before).map fun (x, heap) => (x.position, .ranked r heap)
  | .lines service fresh rest =>
    match service.pop? fresh with
    | some (i, fresh) => some (i, .lines service fresh rest)
    | none => (service.pop? rest).map fun (i, rest) => (i, .lines service fresh rest)

/-- How many nodes wait. -/
def size : Frontier α → Nat
  | .ranked _ heap => heap.size
  | .lines _ fresh rest => fresh.size + rest.size

/-! ## The positions that wait -/

/-- The positions that wait, in no particular order. -/
def toList : Frontier α → List Nat
  | .ranked _ heap => heap.toList.map (·.position)
  | .lines _ fresh rest => fresh.toList ++ rest.toList

omit [Scale α] in
theorem length_toList (q : Frontier α) : q.toList.length = q.size := by
  cases q with
  | ranked r heap => rw [toList, List.length_map, Heap.length_toList, size]
  | lines service fresh rest =>
    rw [toList, List.length_append, Line.length_toList, Line.length_toList, size]

omit [Scale α] in
@[simp] theorem toList_empty (kind : SearchKind) : (empty kind : Frontier α).toList = [] := by
  cases kind <;> rfl

theorem position_rank (ranking : Ranking) (position : Nat) (n : Node α) :
    (rank ranking position n).position = position := by
  cases ranking <;> rfl

/-- **A push adds its position.** -/
theorem toList_push (q : Frontier α) (position : Nat) (n : Node α) (novel : Bool) :
    (q.push position n novel).toList.Perm (position :: q.toList) := by
  cases q with
  | ranked r heap =>
    refine ((Heap.toList_push Ranked.before heap _).map (·.position)).trans ?_
    rw [List.map_cons, position_rank]
    exact .refl _
  | lines service fresh rest =>
    cases novel with
    | true =>
      change ((fresh.push position).toList ++ rest.toList).Perm _
      rw [Line.toList_push, List.append_assoc]
      exact List.perm_middle
    | false =>
      change (fresh.toList ++ (rest.push position).toList).Perm _
      rw [Line.toList_push, ← List.append_assoc]
      exact List.perm_append_comm

theorem perm_of_serve {service : Service} {l rest : Line Nat} {i : Nat}
    (hp : service.pop? l = some (i, rest)) : l.toList.Perm (i :: rest.toList) := by
  cases service with
  | oldest => exact .of_eq (Line.toList_of_popOldest? hp)
  | newest => exact (Line.toList_of_popNewest? hp) ▸ List.perm_append_comm

theorem serve_eq_none {service : Service} {l : Line Nat} :
    service.pop? l = none ↔ l.toList = [] := by
  cases service with
  | oldest => exact Line.popOldest?_eq_none
  | newest => exact Line.popNewest?_eq_none

/-- **A pop takes its position out.** -/
theorem toList_of_pop? {q next : Frontier α} {i : Nat} (hp : q.pop? = some (i, next)) :
    q.toList.Perm (i :: next.toList) := by
  cases q with
  | ranked r heap =>
    obtain ⟨⟨x, heap'⟩, hx, he⟩ := Option.map_eq_some_iff.1 hp
    cases he
    exact (Heap.toList_of_pop? hx).map (·.position)
  | lines service fresh rest =>
    simp only [pop?] at hp
    split at hp
    · rename_i j fresh' hj
      cases hp
      exact (perm_of_serve hj).append_right rest.toList
    · obtain ⟨⟨j, rest'⟩, hj, he⟩ := Option.map_eq_some_iff.1 hp
      cases he
      exact ((perm_of_serve hj).append_left fresh.toList).trans List.perm_middle

/-- **A frontier is exhausted only when nothing waits.** -/
theorem pop?_eq_none {q : Frontier α} : q.pop? = none ↔ q.toList = [] := by
  cases q with
  | ranked r heap =>
    rw [pop?, Option.map_eq_none_iff, Heap.pop?_eq_none, toList, List.map_eq_nil_iff]
  | lines service fresh rest =>
    rw [toList, List.append_eq_nil_iff, ← @serve_eq_none service fresh, ← @serve_eq_none service rest]
    simp only [pop?]
    cases service.pop? fresh <;> simp

end Frontier

end HierPlan
