import HierPlan.Queue.Heap

/-!
# Proofs/Queue/Heap — the first value of a heap comes first

    node x l r      no value of l or r comes before x

`Heap.Ordered` holds of every heap that pushes and pops make of the empty one, as long as `before`
is a strict order in which "neither before the other" can be passed along (`StrictOrder`).
**What is popped is then first of all** (`Heap.Ordered.of_pop?`).
-/

namespace HierPlan

universe u

/-- A strict order whose incomparable values are interchangeable. -/
structure StrictOrder {α : Type u} (before : α → α → Bool) : Prop where
  asymm : ∀ a b, before a b = true → before b a = false
  /-- What is not before `b` is not before anything that is not after `b`. -/
  pass : ∀ a b c, before a b = false → before b c = false → before a c = false

theorem StrictOrder.irrefl {α : Type u} {before : α → α → Bool} (ho : StrictOrder before) (a : α) :
    before a a = false :=
  Bool.eq_false_iff.mpr fun h => Bool.false_ne_true ((ho.asymm a a h).symm.trans h)

namespace Heap

variable {α : Type u} {before : α → α → Bool}

/-- No value comes before one that stands over it. -/
def Ordered (before : α → α → Bool) : Heap α → Prop
  | empty => True
  | node _ x l r => (∀ y ∈ l.toList ++ r.toList, before y x = false) ∧ l.Ordered before ∧ r.Ordered before

theorem mem_toList_merge {a b : Heap α} {y : α} :
    y ∈ (merge before a b).toList ↔ y ∈ a.toList ∨ y ∈ b.toList := by
  rw [(toList_merge before a b).mem_iff, List.mem_append]

theorem Ordered.join {x : α} {a b : Heap α} (ha : a.Ordered before) (hb : b.Ordered before)
    (hfirst : ∀ y ∈ a.toList ++ b.toList, before y x = false) : (join x a b).Ordered before := by
  unfold Heap.join
  split
  · exact ⟨hfirst, ha, hb⟩
  · exact ⟨fun y hy => hfirst y (List.perm_append_comm.mem_iff.mp hy), hb, ha⟩

/-- **Two ordered heaps merge into one.** -/
theorem Ordered.merge (ho : StrictOrder before) {a b : Heap α} (ha : a.Ordered before)
    (hb : b.Ordered before) : (merge before a b).Ordered before := by
  fun_induction Heap.merge before a b with
  | case1 b => exact hb
  | case2 a => exact ha
  | case3 j x l r k y l' r' hyx ih =>
    obtain ⟨hfirst, hl', hr'⟩ := hb
    refine hl'.join (ih ha hr') fun z hz => ?_
    have hx : before x y = false := ho.asymm y x hyx
    rw [List.mem_append, mem_toList_merge] at hz
    rcases hz with hz | (hz | hz)
    · exact hfirst z (List.mem_append_left _ hz)
    · rcases List.mem_cons.mp hz with rfl | hz
      · exact hx
      · exact ho.pass z x y (ha.1 z hz) hx
    · exact hfirst z (List.mem_append_right _ hz)
  | case4 j x l r k y l' r' hyx ih =>
    obtain ⟨hfirst, hl, hr⟩ := ha
    refine hl.join (ih hr hb) fun z hz => ?_
    have hy : before y x = false := Bool.eq_false_iff.mpr hyx
    rw [List.mem_append, mem_toList_merge] at hz
    rcases hz with hz | (hz | hz)
    · exact hfirst z (List.mem_append_left _ hz)
    · exact hfirst z (List.mem_append_right _ hz)
    · rcases List.mem_cons.mp hz with rfl | hz
      · exact hy
      · exact ho.pass z y x (hb.1 z hz) hy

theorem Ordered.push (ho : StrictOrder before) {h : Heap α} (hh : h.Ordered before) (x : α) :
    (h.push before x).Ordered before :=
  hh.merge ho ⟨fun _ hy => absurd hy List.not_mem_nil, trivial, trivial⟩

/-- **What is popped comes first**, and the rest is ordered again. -/
theorem Ordered.of_pop? (ho : StrictOrder before) {h rest : Heap α} {x : α} (hh : h.Ordered before)
    (hp : h.pop? before = some (x, rest)) :
    rest.Ordered before ∧ ∀ y ∈ rest.toList, before y x = false := by
  cases h with
  | empty => cases hp
  | node k z l r =>
    cases hp
    refine ⟨hh.2.1.merge ho hh.2.2, fun y hy => hh.1 y ?_⟩
    rwa [(toList_merge before l r).mem_iff] at hy

end Heap

end HierPlan
