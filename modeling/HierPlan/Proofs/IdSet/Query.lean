import HierPlan.Proofs.IdSet.Layout

/-!
# Proofs/IdSet/Query — asking a layout

What a layout is asked is asked of its words: whether bits are set, and how many.  **The answers are those of the
set**, and a cursor that goes through the words comes to the members in ascending order (`IdSet.toList_toWords`).
-/

namespace HierPlan

/-! ## Words two by two -/

section Words

variable {l r : List UInt64} {f : UInt64 → UInt64 → UInt64}

theorem all_zip : ((l.zip r).all fun (a, b) => f a b == 0) = (List.zipWith f l r).all (· == 0) := by
  rw [← List.map_uncurry_zip_eq_zipWith, List.all_map]
  rfl

/-- **The bits of words are counted word by word.** -/
theorem onesIn_eq (l : List UInt64) :
    Word.onesIn l =
      ((List.range (64 * l.length)).filter fun i => Word.bit (l.getD (i / 64) 0) (i % 64)).length := by
  induction l with
  | nil => rfl
  | cons a l ih =>
    have hfirst : (List.range 64).filter (fun i => Word.bit ((a :: l).getD (i / 64) 0) (i % 64)) = Word.places a := by
      refine List.filter_congr fun i hi => ?_
      have hlt := List.mem_range.mp hi
      rw [Nat.div_eq_of_lt hlt, Nat.mod_eq_of_lt hlt]
      rfl
    have hrest : (fun i => Word.bit ((a :: l).getD (i / 64) 0) (i % 64)) ∘ (64 + ·) =
        fun i => Word.bit (l.getD (i / 64) 0) (i % 64) := by
      funext i
      rw [Function.comp, Nat.add_mod_left, Nat.add_div_left i (by decide)]
      rfl
    change Word.ones a + Word.onesIn l = _
    rw [ih, Word.ones_eq, List.length_cons, Nat.mul_succ, Nat.add_comm _ 64, List.range_add, List.filter_append,
      List.length_append, hfirst, List.filter_map, List.length_map, hrest]

end Words

namespace IdSet

variable {s t : IdSet} {i : Nat}

/-! ## Bits that are set -/

theorem contains_toWords : s.toWords.contains i = s.contains i := by
  rw [WordSet.contains, WordSet.single_bne, get_toWords, contains, ← Bool.and_assoc]
  change (decide (i < s.width) && decide (i < s.width) && _) = _
  rw [Bool.and_self]

theorem isEmpty_iff : s.isEmpty = true ↔ ∀ i, i ∉ s := by
  rw [isEmpty, beq_iff_eq]
  constructor
  · intro h i hi
    rw [mem_iff_testBit, h, Nat.zero_testBit] at hi
    cases hi
  · intro h
    refine Nat.eq_of_testBit_eq fun i => ?_
    rw [Nat.zero_testBit]
    exact Bool.eq_false_iff.mpr fun hi => h i (mem_iff_testBit.mpr hi)

/-- A set has no member if and only if all words are zero. -/
theorem isEmpty_toWords : s.toWords.isEmpty = s.isEmpty := by
  refine Bool.eq_iff_iff.mpr ⟨fun h => isEmpty_iff.mpr ?_, fun h => ?_⟩
  · have hclear : s.toWords.clear = s.toWords := by
      refine congrArg (WordSet.mk · s.width) ((List.map_congr_left fun w hw => ?_).trans (List.map_id _))
      exact (beq_iff_eq.mp (List.all_eq_true.mp h w hw)).symm
    have hs : empty s.width = s := toWords_injective (toWords_clear.symm.trans hclear)
    intro i hi
    rw [← hs] at hi
    exact not_mem_empty hi
  · have hs : s = empty s.width := ext rfl fun i => iff_of_false (isEmpty_iff.mp h i) not_mem_empty
    rw [hs, ← toWords_empty]
    exact List.all_eq_true.mpr fun w hw => beq_iff_eq.mpr (List.eq_of_mem_replicate hw)

theorem isSubset_toWords (hst : s.width = t.width) : s.toWords.isSubset t.toWords = s.isSubset t := by
  have hempty : s.toWords.isSubset t.toWords = (s.toWords.sdiff t.toWords).isEmpty :=
    all_zip (f := fun a b => a &&& ~~~b)
  rw [hempty, toWords_sdiff hst, isEmpty_toWords]
  refine Bool.eq_iff_iff.mpr (isEmpty_iff.trans (Iff.trans (forall_congr' fun i => ?_) isSubset_iff.symm))
  rw [mem_sdiff, not_and, Decidable.not_not]

theorem isDisjoint_toWords (hst : s.width = t.width) : s.toWords.isDisjoint t.toWords = s.isDisjoint t := by
  have hempty : s.toWords.isDisjoint t.toWords = (s.toWords.inter t.toWords).isEmpty :=
    all_zip (f := fun a b => a &&& b)
  rw [hempty, toWords_inter hst, isEmpty_toWords]
  refine Bool.eq_iff_iff.mpr (isEmpty_iff.trans (Iff.trans (forall_congr' fun i => ?_) isDisjoint_iff.symm))
  rw [mem_inter, not_and]

/-! ## Counting -/

/-- No member stands past the width. -/
theorem filter_range_of_le {m : Nat} (hm : s.width ≤ m) : (List.range m).filter s.contains = s.toList := by
  obtain ⟨k, rfl⟩ := Nat.exists_eq_add_of_le hm
  rw [List.range_add, List.filter_append, toList]
  refine (congrArg (_ ++ ·) (List.filter_eq_nil_iff.mpr ?_)).trans (List.append_nil _)
  intro i hi
  obtain ⟨j, -, rfl⟩ := List.mem_map.mp hi
  exact fun h => Nat.not_lt.mpr (Nat.le_add_right ..) (lt_width_of_mem h)

/-- **There are as many bits as members.** -/
theorem count_toWords : s.toWords.count = s.count := by
  have hbits : (fun i => Word.bit (s.words.getD (i / 64) 0) (i % 64)) = s.contains := funext fun i => get_toWords
  rw [WordSet.count, onesIn_eq, s.fits_toWords]
  refine congrArg List.length ((congrArg (List.filter · _) hbits).trans (filter_range_of_le ?_))
  change s.width ≤ 64 * ((s.width + 63) / 64)
  omega

theorem common_toWords (hst : s.width = t.width) : s.toWords.common t.toWords = (s.inter t).count := by
  rw [← count_toWords, ← toWords_inter hst]
  exact congrArg Word.onesIn List.map_uncurry_zip_eq_zipWith

/-! ## Going through the members -/

theorem pairwise_toList (s : IdSet) : s.toList.Pairwise (· < ·) := List.pairwise_lt_range.filter _

/-- All ids are to come at first. -/
theorem has_ones_toWords : s.toWords.ones.Has i ↔ i ∈ s := by
  have hword : s.toWords.ones.word (i / 64) = s.toWords.wordOf i := by
    unfold Ones.word WordSet.ones
    split
    · rename_i hfirst
      rw [WordSet.wordOf, hfirst]
      cases s.toWords.words <;> rfl
    · rename_i hlater
      exact if_pos (Nat.pos_of_ne_zero hlater)
  rw [Ones.Has, hword, bit_wordOf]

/-- **A cursor comes to the members of a set, each once, in ascending order.** -/
theorem toList_toWords : s.toWords.toList = s.toList := by
  have hpairwise := s.toWords.ones.pairwise_toList
  refine List.Perm.eq_of_pairwise (fun a b _ _ h h' => absurd h' (Nat.lt_asymm h)) hpairwise s.pairwise_toList ?_
  refine (List.perm_ext_iff_of_nodup (hpairwise.imp Nat.ne_of_lt) s.nodup_toList).mpr fun i => ?_
  rw [Ones.mem_toList, has_ones_toWords, mem_toList]

end IdSet

end HierPlan
