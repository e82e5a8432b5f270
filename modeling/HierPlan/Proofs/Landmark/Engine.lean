import HierPlan.Landmark.Engine
import HierPlan.Proofs.Landmark.Worklist

/-!
# Proofs/Landmark/Engine — what a fresh engine answers

    open ids ──join──▸ their bottom-up entries ──close──▸ with the entries of all members, in both tables

A fresh engine answers every question it was built for (`LandmarkEngine.landmarks_eq`), and the answer depends on
nothing but the problem.  Closing adds only what members bring in (`LandmarkEngine.forall_mem_close`) and takes
nothing out, so **an engine finds no fewer landmarks in both directions than in one**
(`LandmarkEngine.mem_of_closing`).
-/

namespace HierPlan

namespace LandmarkEngine

variable {m : Model} {s : Situation} {id i : Nat}

/-! ## Closing -/

variable {size fuel : Nat} {bu td : LandmarkTable} {acc : IdSet}

/-- Whether an id brings in another: one of its entries holds it, in a table that reaches the id. -/
def Brings (size : Nat) (bu td : LandmarkTable) (id i : Nat) : Prop :=
  (id < size ∧ bu.isReached id = true) ∧ i ∈ bu.entry id ∨ td.isReached id = true ∧ i ∈ td.entry id

/-- A set that takes in another on a condition. -/
theorem mem_ite_union {s t : IdSet} {p : Prop} [Decidable p] :
    (i ∈ if p then s.union t else s) ↔ i ∈ s ∨ i < s.width ∧ p ∧ i ∈ t := by
  by_cases hp : p <;> simp [hp, and_comm]

theorem width_ite_union {s t : IdSet} {p : Prop} [Decidable p] : (if p then s.union t else s).width = s.width := by
  split <;> rfl

theorem width_gain : (gain size bu td id acc).width = acc.width := width_ite_union.trans width_ite_union

theorem mem_gain : i ∈ gain size bu td id acc ↔ i ∈ acc ∨ i < acc.width ∧ Brings size bu td id i := by
  unfold gain Brings
  dsimp only
  rw [mem_ite_union, width_ite_union, mem_ite_union, Bool.and_eq_true, decide_eq_true_iff, or_assoc, ← and_or_left]

/-- What some ids bring in, one after the other. -/
def round (size : Nat) (bu td : LandmarkTable) (ids : List Nat) (acc : IdSet) : IdSet :=
  ids.foldl (fun acc id => gain size bu td id acc) acc

theorem width_round {ids : List Nat} : (round size bu td ids acc).width = acc.width := by
  induction ids generalizing acc with
  | nil => rfl
  | cons id ids ih => exact ih.trans width_gain

theorem mem_round {ids : List Nat} : i ∈ round size bu td ids acc ↔
    i ∈ acc ∨ i < acc.width ∧ ∃ id ∈ ids, Brings size bu td id i := by
  induction ids generalizing acc with
  | nil => simp [round]
  | cons id ids ih =>
    have hstep : round size bu td (id :: ids) acc = round size bu td ids (gain size bu td id acc) := rfl
    rw [hstep, ih, mem_gain, width_gain, List.exists_mem_cons_iff, or_assoc, ← and_or_left]

/-- One round of closing. -/
theorem close_succ : close size bu td (fuel + 1) acc =
    if round size bu td acc.toList acc = acc then acc
    else close size bu td fuel (round size bu td acc.toList acc) := by
  rw [close]
  rfl

/-- Closing keeps the width. -/
theorem width_close : (close size bu td fuel acc).width = acc.width := by
  induction fuel generalizing acc with
  | zero => rfl
  | succ fuel ih =>
    rw [close_succ]
    split
    · rfl
    · exact ih.trans width_round

/-- Closing adds only what members bring in. -/
theorem forall_mem_close {P : Nat → Prop} (hgain : ∀ id, P id → ∀ i, Brings size bu td id i → P i)
    (hacc : ∀ i ∈ acc, P i) : ∀ i ∈ close size bu td fuel acc, P i := by
  induction fuel generalizing acc with
  | zero => exact hacc
  | succ fuel ih =>
    rw [close_succ]
    split
    · exact hacc
    · refine ih fun i hi => ?_
      obtain hi | ⟨-, id, hid, hi⟩ := mem_round.mp hi
      exacts [hacc i hi, hgain id (hacc id (IdSet.mem_toList.mp hid)) i hi]

/-- Closing takes nothing out. -/
theorem mem_close (hi : i ∈ acc) : i ∈ close size bu td fuel acc := by
  induction fuel generalizing acc with
  | zero => exact hi
  | succ fuel ih =>
    rw [close_succ]
    split
    · exact hi
    · exact ih (mem_round.mpr (.inl hi))

/-! ## Answers -/

/-- What is still to be reached, whatever an engine was built for. -/
def wanted (m : Model) (s : Situation) : List Nat := (build m false).openIds m s.state s.network

/-- Goal facts and open tasks are to be reached. -/
theorem of_mem_wanted (hid : id ∈ wanted m s) : id ∈ m.goal ∨ ∃ t ∈ s.network, m.taskId t = id := by
  rw [wanted, openIds, List.mem_append, List.mem_filter, IdSet.mem_toList, List.mem_map] at hid
  exact hid.imp_left And.left

/-- What a fresh engine joins: the bottom-up entries of some ids. -/
def joined (m : Model) (ids : List Nat) : IdSet :=
  ids.foldl (fun acc id => acc.union ((View.bottomUp.graph m).propagate.entry id)) (.empty m.size)

/-- What a fresh engine for both directions makes of a set. -/
def closed (m : Model) (seed : IdSet) : IdSet :=
  let down := (View.topDown.graph m).propagate
  (close m.size (View.bottomUp.graph m).propagate down (down.width + 1) (seed.resize down.width)).resize m.size

/-- **What a fresh engine answers**: the entries of what is still to be reached joined, and closed if asked;
nothing, if some of it is not reached. -/
theorem landmarks_eq {bidirectional closing : Bool} (hb : closing = true → bidirectional = true) :
    (build m bidirectional).landmarks m s.state s.network closing =
      .ok (if (wanted m s).all (View.bottomUp.graph m).propagate.isReached = true then
        some (if closing = true then closed m (joined m (wanted m s)) else joined m (wanted m s))
      else none) := by
  have hseed : (build m bidirectional).seed m s.state s.network =
      .ok (if (wanted m s).all (View.bottomUp.graph m).propagate.isReached = true then
        some (joined m (wanted m s)) else none) := rfl
  rw [landmarks, hseed]
  split
  · cases closing with
    | false => rfl
    | true =>
      obtain rfl := hb rfl
      rfl
  · rfl

/-- An engine that was built for more answers what one built for no more than the question does. -/
theorem landmarks_build {bidirectional closing : Bool} (hb : closing = true → bidirectional = true) :
    (build m bidirectional).landmarks m s.state s.network closing =
      (build m closing).landmarks m s.state s.network closing :=
  (landmarks_eq hb).trans (landmarks_eq fun h => h).symm

theorem width_joined {ids : List Nat} : (joined m ids).width = m.size := LandmarkTable.width_foldl_union

/-- The join of some entries holds what they hold. -/
theorem forall_mem_joined {P : Nat → Prop} {ids : List Nat}
    (h : ∀ id ∈ ids, ∀ i ∈ (View.bottomUp.graph m).propagate.entry id, P i) : ∀ i ∈ joined m ids, P i := by
  intro i hi
  obtain hi | ⟨-, id, hid, hi⟩ := LandmarkTable.mem_foldl_union.mp hi
  · exact absurd hi IdSet.not_mem_empty
  · exact h id hid i hi

/-- Landmarks are ids of the problem. -/
theorem width_of_landmarks {bidirectional closing : Bool} (hb : closing = true → bidirectional = true)
    {found : IdSet} (h : (build m bidirectional).landmarks m s.state s.network closing = .ok (some found)) :
    found.width = m.size := by
  rw [landmarks_eq hb] at h
  split at h
  · obtain rfl := Option.some.inj (Except.ok.inj h)
    split
    · rfl
    · exact width_joined
  · cases h

/-- **An engine finds no fewer landmarks in both directions than in one.** -/
theorem mem_of_closing {bidirectional : Bool} {one both : IdSet}
    (hone : (build m bidirectional).landmarks m s.state s.network false = .ok (some one))
    (hboth : (build m true).landmarks m s.state s.network true = .ok (some both)) (hid : id ∈ one) :
    id ∈ both := by
  have never : false = true → bidirectional = true := fun h => nomatch h
  have always : true = true → true = true := fun h => h
  rw [landmarks_eq never] at hone
  rw [landmarks_eq always] at hboth
  split at hone
  · rename_i hall
    obtain rfl := Option.some.inj (Except.ok.inj hone)
    rw [if_pos hall] at hboth
    obtain rfl := Option.some.inj (Except.ok.inj hboth)
    have hlt : id < m.size := width_joined (m := m) ▸ IdSet.lt_width_of_mem hid
    have hwidth : (View.topDown.graph m).propagate.width = m.size + m.operators.size := by
      rw [(View.topDown.mirrored m).descends.size, View.graph, AndOrGraph.size_ofArcs]
      rfl
    refine IdSet.mem_resize.mpr ⟨mem_close (IdSet.mem_resize.mpr ⟨hid, ?_⟩), hlt⟩
    omega
  · cases hone

end LandmarkEngine

end HierPlan
