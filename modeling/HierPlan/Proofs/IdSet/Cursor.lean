import HierPlan.Proofs.IdSet.Bit

/-!
# Proofs/IdSet/Cursor — going through the ids of a set

    words      w₀   w₁   w₂   w₃
    cursor          ▲ what is left of w₁

`Ones.Has` says which ids a cursor has not come to.  It gives out the least of them and keeps the others
(`Ones.next?_spec`), passing over empty words, so **it comes to each id once, in ascending order**
(`Ones.pairwise_toList`, `Ones.mem_toList`).
-/

namespace HierPlan.Ones

open Word

variable {o o' : Ones} {i j k : Nat}

/-- What is left of word `k`. -/
def word (o : Ones) (k : Nat) : UInt64 :=
  if k = o.index then o.current else if o.index < k then o.words.getD k 0 else 0

/-- Whether an id is still to come. -/
def Has (o : Ones) (i : Nat) : Prop := bit (o.word (i / 64)) (i % 64) = true

/-- The current word says which of its ids are to come. -/
theorem has_iff_of_eq (hi : i / 64 = o.index) : o.Has i ↔ bit o.current (i % 64) = true := by
  rw [Has, word, if_pos hi]

/-- Nothing is left of a word that was passed. -/
theorem word_of_lt (hk : k < o.index) : o.word k = 0 := by
  rw [word, if_neg (Nat.ne_of_lt hk), if_neg (Nat.lt_asymm hk)]

/-- **An empty word may be passed over.** -/
theorem word_pass (hcurrent : o.current = 0) {w : UInt64} (hw : o.words[o.index + 1]? = some w) :
    word { o with index := o.index + 1, current := w } = o.word := by
  funext k
  unfold word
  dsimp only
  obtain hk | rfl | hk := Nat.lt_trichotomy k o.index
  · rw [if_neg (by omega), if_neg (by omega), if_neg (by omega), if_neg (by omega)]
  · rw [if_neg (by omega), if_neg (by omega), if_pos rfl, hcurrent]
  · rw [if_neg (Nat.ne_of_gt hk), if_pos hk]
    by_cases hnext : k = o.index + 1
    · rw [if_pos hnext, hnext, List.getD_eq_getElem?_getD, hw, Option.getD_some]
    · rw [if_neg hnext, if_pos (by omega)]

/-- **The least id to come is the lowest bit of a current word that is not empty.** -/
theorem least_current (hcurrent : o.current ≠ 0) :
    o.Has (64 * o.index + trailingZeros o.current) ∧ ∀ j < 64 * o.index + trailingZeros o.current, ¬ o.Has j := by
  have hbit := bit_trailingZeros hcurrent
  have hz := lt_of_bit hbit
  refine ⟨?_, fun j hj => ?_⟩
  · rw [has_iff_of_eq (by omega), Nat.mul_add_mod, Nat.mod_eq_of_lt hz]
    exact hbit
  · by_cases hword : j / 64 = o.index
    · rw [has_iff_of_eq hword, bit_of_lt_trailingZeros (by omega)]
      exact Bool.false_ne_true
    · rw [Has, word_of_lt (by omega), bit_zero]
      exact Bool.false_ne_true

/-- Without the lowest bit of the current word the other ids are to come. -/
theorem has_dropLowest (hcurrent : o.current ≠ 0) :
    Has { o with current := dropLowest o.current } j ↔
      o.Has j ∧ j ≠ 64 * o.index + trailingZeros o.current := by
  have hz := lt_of_bit (bit_trailingZeros hcurrent)
  by_cases hword : j / 64 = o.index
  · refine (has_iff_of_eq (o := { o with current := dropLowest o.current }) hword).trans ?_
    rw [has_iff_of_eq hword, bit_dropLowest hcurrent, Bool.and_eq_true, decide_eq_true_iff]
    exact and_congr_right fun _ => not_congr (by omega)
  · have hother : j ≠ 64 * o.index + trailingZeros o.current := by omega
    rw [Has, Has, word, word, if_neg hword, if_neg hword]
    exact (and_iff_left hother).symm

/-- **A cursor at its end has come to all ids.** -/
theorem not_has_of_next? (h : o.next? = none) : ¬ o.Has i := by
  induction o using next?.induct with
  | case1 o hcurrent =>
    rw [next?, if_pos hcurrent] at h
    cases h
  | case2 o hcurrent hnone =>
    have hword : o.word (i / 64) = 0 := by
      unfold word
      split
      · exact Decidable.not_not.mp hcurrent
      · split
        · rw [List.getD_eq_getElem?_getD, List.getElem?_eq_none (by have := List.getElem?_eq_none_iff.mp hnone; omega)]
          rfl
        · rfl
    rw [Has, hword, bit_zero]
    exact Bool.false_ne_true
  | case3 o hcurrent w hsome ih =>
    rw [next?, if_neg hcurrent, hsome] at h
    rw [Has, ← word_pass (Decidable.not_not.mp hcurrent) hsome]
    exact ih h

/-- **A cursor gives out the least id that is to come**, and keeps the others. -/
theorem next?_spec (h : o.next? = some (i, o')) :
    o.Has i ∧ (∀ j < i, ¬ o.Has j) ∧ ∀ j, o'.Has j ↔ o.Has j ∧ j ≠ i := by
  induction o using next?.induct with
  | case1 o hcurrent =>
    rw [next?, if_pos hcurrent] at h
    cases h
    obtain ⟨hhas, hleast⟩ := least_current hcurrent
    exact ⟨hhas, hleast, fun j => has_dropLowest hcurrent⟩
  | case2 o hcurrent hnone =>
    rw [next?, if_neg hcurrent, hnone] at h
    cases h
  | case3 o hcurrent w hsome ih =>
    rw [next?, if_neg hcurrent, hsome] at h
    have hpass := word_pass (Decidable.not_not.mp hcurrent) hsome
    simpa only [Has, hpass] using ih h

theorem toList_of_none (h : o.next? = none) : o.toList = [] := by rw [toList, h]

theorem toList_of_some (h : o.next? = some (i, o')) : o.toList = i :: o'.toList := by rw [toList, h]

/-- **A cursor comes to every id that is to come.** -/
theorem mem_toList : j ∈ o.toList ↔ o.Has j := by
  induction o using toList.induct with
  | case1 o hnone =>
    rw [toList_of_none hnone]
    exact iff_of_false List.not_mem_nil (not_has_of_next? hnone)
  | case2 o i o' hsome ih =>
    obtain ⟨hhas, -, hrest⟩ := next?_spec hsome
    rw [toList_of_some hsome, List.mem_cons, ih, hrest]
    constructor
    · rintro (rfl | ⟨hj, -⟩)
      · exact hhas
      · exact hj
    · exact fun hj => (Decidable.em (j = i)).imp_right fun hne => ⟨hj, hne⟩

/-- **A cursor comes to ids in ascending order.** -/
theorem pairwise_toList (o : Ones) : o.toList.Pairwise (· < ·) := by
  induction o using toList.induct with
  | case1 o hnone =>
    rw [toList_of_none hnone]
    exact .nil
  | case2 o i o' hsome ih =>
    obtain ⟨-, hleast, hrest⟩ := next?_spec hsome
    rw [toList_of_some hsome]
    refine List.pairwise_cons.mpr ⟨fun j hj => ?_, ih⟩
    obtain ⟨hj, hne⟩ := (hrest j).mp (mem_toList.mp hj)
    exact Nat.lt_of_le_of_ne (Nat.not_lt.mp fun hlt => hleast j hlt hj) hne.symm

end HierPlan.Ones
