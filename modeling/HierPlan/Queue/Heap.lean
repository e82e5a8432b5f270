/-!
# Queue/Heap — a leftist heap

`Heap α` is ordered by a relation `before` that every operation takes as an argument.  A heap is one
merge away from any push or pop, and a merge walks the two right spines only, which the stored ranks
keep short.

`Heap.toList` lists the values in no particular order.  **Nothing is lost or made up** —
`toList_push` and `toList_of_pop?` are permutations, whatever `before` is.
-/

namespace HierPlan

universe u

/-- A binary tree; each node stores the length of its right spine. -/
inductive Heap (α : Type u) where
  | empty
  | node (rank : Nat) (value : α) (left right : Heap α)

namespace Heap

variable {α : Type u}

/-- How many values the heap holds. -/
def size : Heap α → Nat
  | empty => 0
  | node _ _ l r => l.size + r.size + 1

/-- The length of the right spine. -/
def rank : Heap α → Nat
  | empty => 0
  | node k _ _ _ => k

/-- A node over two heaps, the one with the longer spine on the left. -/
def join (x : α) (a b : Heap α) : Heap α :=
  if b.rank ≤ a.rank then node (b.rank + 1) x a b else node (a.rank + 1) x b a

/-- The values of two heaps in one. -/
def merge (before : α → α → Bool) : Heap α → Heap α → Heap α
  | empty, b => b
  | a, empty => a
  | node j x l r, node k y l' r' =>
    if before y x then join y l' (merge before (node j x l r) r')
    else join x l (merge before r (node k y l' r'))
termination_by a b => a.size + b.size
decreasing_by all_goals simp only [size]; omega

/-- The heap with a value put in. -/
def push (before : α → α → Bool) (h : Heap α) (x : α) : Heap α :=
  merge before h (node 1 x empty empty)

/-- The first value and the heap without it. -/
def pop? (before : α → α → Bool) : Heap α → Option (α × Heap α)
  | empty => none
  | node _ x l r => some (x, merge before l r)

/-! ## The values -/

/-- The values, the first of each heap before those of its parts. -/
def toList : Heap α → List α
  | empty => []
  | node _ x l r => x :: (l.toList ++ r.toList)

@[simp] theorem toList_empty : toList (empty : Heap α) = [] := rfl

theorem length_toList (h : Heap α) : h.toList.length = h.size := by
  induction h with
  | empty => rfl
  | node k x l r ihl ihr => simp [toList, size, ihl, ihr]

theorem toList_join (x : α) (a b : Heap α) : (join x a b).toList.Perm (x :: (a.toList ++ b.toList)) := by
  unfold join
  split
  · exact .refl _
  · exact .cons x List.perm_append_comm

theorem toList_merge (before : α → α → Bool) (a b : Heap α) :
    (merge before a b).toList.Perm (a.toList ++ b.toList) := by
  fun_induction merge before a b with
  | case1 b => exact .refl _
  | case2 a => exact .of_eq (List.append_nil _).symm
  | case3 j x l r k y l' r' _ ih =>
    refine (toList_join y l' _).trans ?_
    refine (List.Perm.cons y ((ih.append_left l'.toList).trans ?_)).trans List.perm_middle.symm
    rw [← List.append_assoc, ← List.append_assoc]
    exact List.perm_append_comm.append_right r'.toList
  | case4 j x l r k y l' r' _ ih =>
    exact (toList_join x l _).trans
      (.cons x ((ih.append_left l.toList).trans (.of_eq (List.append_assoc _ _ _).symm)))

/-- **A push adds its value.** -/
theorem toList_push (before : α → α → Bool) (h : Heap α) (x : α) :
    (h.push before x).toList.Perm (x :: h.toList) :=
  (toList_merge before h _).trans List.perm_append_comm

/-- **A pop takes its value out.** -/
theorem toList_of_pop? {before : α → α → Bool} {h rest : Heap α} {x : α}
    (hp : h.pop? before = some (x, rest)) : h.toList.Perm (x :: rest.toList) := by
  cases h with
  | empty => cases hp
  | node k y l r =>
    cases hp
    exact .cons x (toList_merge before l r).symm

theorem pop?_eq_none {before : α → α → Bool} {h : Heap α} :
    h.pop? before = none ↔ h.toList = [] := by
  cases h <;> simp [pop?, toList]

end Heap

end HierPlan
