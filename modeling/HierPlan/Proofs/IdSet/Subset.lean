import HierPlan.Proofs.IdSet.Query
import Mathlib.Data.Finset.Sort

/-!
# Proofs/IdSet/Subset — sets of ids are finite sets of numbers

    finite sets of numbers  ◂──members──  sets of ids  ──layout──▸  words

The same script can be run on finite sets of numbers below a width, on sets of ids and on words.  **The three runs go
alike** (`IdSet.runs_agree`): the same is told, the finite sets are those of the members, and the words lay them out.
What a layout says of a set is true of its members, and there is one layout for each set of numbers below a width.
-/

namespace HierPlan

/-- A finite set of numbers, and the width they are below. -/
structure Below where
  width : ℕ
  members : Finset ℕ
  deriving DecidableEq

/-- Finite sets of numbers below a width. -/
def belows : SetKind Below where
  width := Below.width
  empty width := ⟨width, ∅⟩
  full width := ⟨width, Finset.range width⟩
  ofList width ids := ⟨width, ids.toFinset.filter (· < width)⟩
  resize s width := ⟨width, s.members.filter (· < width)⟩
  insert s i :=
    (⟨s.width, if i < s.width then insert i s.members else s.members⟩, decide (i < s.width ∧ i ∉ s.members))
  erase s i := (⟨s.width, s.members.erase i⟩, decide (i ∈ s.members))
  clear s := ⟨s.width, ∅⟩
  union s t := (⟨s.width, s.members ∪ t.members⟩, decide (¬ t.members ⊆ s.members))
  inter s t := ⟨s.width, s.members ∩ t.members⟩
  sdiff s t := ⟨s.width, s.members \ t.members⟩

namespace IdSet

variable {s t : IdSet} {i : ℕ}

/-- The members of a set as a finite set of numbers. -/
def toBelow (s : IdSet) : Below := ⟨s.width, s.toList.toFinset⟩

@[simp] theorem mem_toBelow : i ∈ s.toBelow.members ↔ i ∈ s := by
  rw [toBelow, List.mem_toFinset, mem_toList]

theorem eq_toBelow {b : Below} (hwidth : b.width = s.width) (hmem : ∀ i, i ∈ b.members ↔ i ∈ s) : b = s.toBelow := by
  obtain ⟨width, members⟩ := b
  cases hwidth
  exact congrArg (Below.mk s.width) (Finset.ext fun i => (hmem i).trans mem_toBelow.symm)

theorem contains_eq_decide : s.contains i = decide (i ∈ s.toBelow.members) :=
  Bool.eq_iff_iff.mpr (by rw [decide_eq_true_iff, mem_toBelow]; rfl)

theorem canInsert_eq_decide : s.canInsert i = decide (i < s.width ∧ i ∉ s.toBelow.members) := by
  rw [canInsert, contains_eq_decide, ← decide_not, ← Bool.decide_and]

/-- A union adds something unless all of it was there. -/
theorem canGrow_eq_decide (hst : s.width = t.width) :
    s.canGrow t = decide (¬ t.toBelow.members ⊆ s.toBelow.members) := by
  refine decide_eq_decide.mpr (not_congr ⟨fun h i hi => ?_, fun h => ext rfl fun i => ?_⟩)
  · rw [mem_toBelow] at hi ⊢
    rw [← h, mem_union]
    exact .inr ⟨hi, hst ▸ lt_width_of_mem hi⟩
  · rw [mem_union]
    exact ⟨fun hi => hi.elim id fun hi => mem_toBelow.mp (h (mem_toBelow.mpr hi.1)), .inl⟩

end IdSet

/-- **Whatever is done to sets of members is the set of members of what is done to the sets.** -/
theorem belows_hom : SetKind.Hom idSets belows IdSet.toBelow where
  width _ := rfl
  empty width := IdSet.eq_toBelow rfl fun i => by simp [belows, idSets]
  full width := IdSet.eq_toBelow rfl fun i => by simp [belows, idSets]
  ofList width ids := IdSet.eq_toBelow (IdSet.width_ofList ..).symm fun i => by simp [belows, idSets]
  resize s width := IdSet.eq_toBelow rfl fun i => by simp [belows, idSets]
  insert s i := by
    refine Prod.ext (IdSet.eq_toBelow (IdSet.width_insert ..).symm fun j => ?_) IdSet.canInsert_eq_decide.symm
    by_cases hi : i < s.width <;> simp [belows, IdSet.toBelow, hi, or_comm]
  erase s i := by
    refine Prod.ext (IdSet.eq_toBelow (IdSet.width_erase ..).symm fun j => ?_) IdSet.contains_eq_decide.symm
    simp [belows, and_comm]
  clear s := IdSet.eq_toBelow rfl fun i => by simp [belows, idSets]
  union s t hst := by
    refine Prod.ext (IdSet.eq_toBelow rfl fun i => ?_) (IdSet.canGrow_eq_decide hst).symm
    have hlt : i ∈ t → i < s.width := fun hi => (show s.width = t.width from hst) ▸ IdSet.lt_width_of_mem hi
    simpa [belows] using or_congr_right (and_iff_left_of_imp hlt).symm
  inter s t hst := IdSet.eq_toBelow rfl fun i => by simp [belows, idSets]
  sdiff s t hst := IdSet.eq_toBelow rfl fun i => by simp [belows, idSets]

namespace IdSet

/-! ## What a layout says -/

/-- **A layout says what is true of the members**, and so does the set. -/
structure Agrees (s : IdSet) : Prop where
  /-- There are as many words as the width takes. -/
  length : s.toWords.words.length = (s.width + 63) / 64
  /-- A bit is set if its id is a member. -/
  bit : ∀ k j, j < 64 → Word.bit (s.toWords.words.getD k 0) j = decide (64 * k + j ∈ s.toBelow.members)
  /-- No bit is set at or past the width. -/
  tail : ∀ k j, s.width ≤ 64 * k + j → Word.bit (s.toWords.words.getD k 0) j = false
  /-- Members are below the width. -/
  below : ∀ i ∈ s.toBelow.members, i < s.width
  contains : ∀ i, s.toWords.contains i = s.contains i ∧ s.contains i = decide (i ∈ s.toBelow.members)
  count : s.toWords.count = s.count ∧ s.count = s.toBelow.members.card
  isEmpty : s.toWords.isEmpty = s.isEmpty ∧ s.isEmpty = decide (s.toBelow.members = ∅)
  isFull : s.toWords.isFull = s.isFull ∧ s.isFull = decide (s.toBelow.members = Finset.range s.width)
  /-- A cursor comes to the members, each once, in ascending order. -/
  toList : s.toWords.toList = s.toList ∧ s.toList = s.toBelow.members.sort

/-- **Layouts of the same width say what is true of the members of both.** -/
structure Compare (s t : IdSet) : Prop where
  isSubset : s.toWords.isSubset t.toWords = s.isSubset t ∧
    s.isSubset t = decide (s.toBelow.members ⊆ t.toBelow.members)
  isDisjoint : s.toWords.isDisjoint t.toWords = s.isDisjoint t ∧
    s.isDisjoint t = decide (Disjoint s.toBelow.members t.toBelow.members)
  common : s.toWords.common t.toWords = (s.toBelow.members ∩ t.toBelow.members).card
  /-- There is one layout for each set of members, and one set. -/
  eq : (s.toWords = t.toWords ↔ s.toBelow.members = t.toBelow.members) ∧
    (s = t ↔ s.toBelow.members = t.toBelow.members)

variable {s t : IdSet} {i : ℕ}

theorem card_toBelow (s : IdSet) : s.toBelow.members.card = s.count :=
  List.toFinset_card_of_nodup s.nodup_toList

theorem isEmpty_eq_decide (s : IdSet) : s.isEmpty = decide (s.toBelow.members = ∅) := by
  refine Bool.eq_iff_iff.mpr (isEmpty_iff.trans ?_)
  rw [decide_eq_true_iff, Finset.eq_empty_iff_forall_notMem]
  exact forall_congr' fun i => not_congr mem_toBelow.symm

theorem isFull_eq_decide (s : IdSet) : s.isFull = decide (s.toBelow.members = Finset.range s.width) := by
  have hsub : s.toBelow.members ⊆ Finset.range s.width := fun i hi =>
    Finset.mem_range.mpr (lt_width_of_mem (mem_toBelow.mp hi))
  refine Bool.eq_iff_iff.mpr ?_
  rw [isFull, beq_iff_eq, decide_eq_true_iff, ← card_toBelow]
  constructor
  · exact fun h => Finset.eq_of_subset_of_card_le hsub (by rw [Finset.card_range, h])
  · exact fun h => by rw [h, Finset.card_range]

/-- **Every set agrees with its layout and with its members.** -/
theorem agrees (s : IdSet) : s.Agrees := by
  have hbit : ∀ k j, j < 64 → Word.bit (s.toWords.words.getD k 0) j = decide (64 * k + j ∈ s.toBelow.members) := by
    intro k j hj
    rw [← contains_eq_decide, ← get_toWords, WordSet.get_mul_add hj]
  exact {
    length := s.fits_toWords
    bit := hbit
    tail := fun k j hwidth => Bool.eq_false_iff.mpr fun h => by
      rw [hbit k j (Word.lt_of_bit h), decide_eq_true_iff, mem_toBelow] at h
      exact Nat.not_lt.mpr hwidth (lt_width_of_mem h)
    below := fun i hi => lt_width_of_mem (mem_toBelow.mp hi)
    contains := fun i => ⟨contains_toWords, contains_eq_decide⟩
    count := ⟨count_toWords, s.card_toBelow.symm⟩
    isEmpty := ⟨isEmpty_toWords, s.isEmpty_eq_decide⟩
    isFull := ⟨congrArg (· == s.width) count_toWords, s.isFull_eq_decide⟩
    toList := ⟨toList_toWords, ((List.toFinset_sort (· ≤ ·) s.nodup_toList).mpr
      (s.pairwise_toList.imp Nat.le_of_lt)).symm⟩ }

theorem isSubset_eq_decide (s t : IdSet) :
    s.isSubset t = decide (s.toBelow.members ⊆ t.toBelow.members) := by
  refine Bool.eq_iff_iff.mpr (isSubset_iff.trans ?_)
  rw [decide_eq_true_iff, Finset.subset_iff]
  exact forall_congr' fun i => imp_congr mem_toBelow.symm mem_toBelow.symm

theorem isDisjoint_eq_decide (s t : IdSet) :
    s.isDisjoint t = decide (Disjoint s.toBelow.members t.toBelow.members) := by
  refine Bool.eq_iff_iff.mpr (isDisjoint_iff.trans ?_)
  rw [decide_eq_true_iff, Finset.disjoint_left]
  exact forall_congr' fun i => imp_congr mem_toBelow.symm (not_congr mem_toBelow.symm)

/-- **Sets of the same width compare like their layouts and like their members.** -/
theorem compare_of_width_eq (hst : s.width = t.width) : s.Compare t := by
  have hmembers : s.toBelow.members = t.toBelow.members → s = t := fun h =>
    ext hst fun i => by rw [← mem_toBelow, h, mem_toBelow]
  have hcongr : s = t → s.toBelow.members = t.toBelow.members := fun h => h ▸ rfl
  have hcommon : (s.inter t).toBelow.members = s.toBelow.members ∩ t.toBelow.members := Finset.ext fun i => by
    rw [Finset.mem_inter, mem_toBelow, mem_toBelow, mem_toBelow, mem_inter]
  exact {
    isSubset := ⟨isSubset_toWords hst, s.isSubset_eq_decide t⟩
    isDisjoint := ⟨isDisjoint_toWords hst, s.isDisjoint_eq_decide t⟩
    common := by rw [common_toWords hst, ← card_toBelow, hcommon]
    eq := ⟨⟨fun h => hcongr (toWords_injective h), fun h => congrArg toWords (hmembers h)⟩, hcongr, hmembers⟩ }

/-- **The same script on numbers, on sets of ids and on words goes alike.**  There is a result for all or for none,
and the same is told.  The words lay out the sets of ids, which have the members of the sets of numbers, so that what
the words are asked is true of the numbers, and words of the same width are equal if and only if the numbers are. -/
theorem runs_agree (ops : List SetOp) :
    wordSets.run ops [] = SetKind.image toWords (idSets.run ops []) ∧
      belows.run ops [] = SetKind.image toBelow (idSets.run ops []) ∧
      ∀ sets flags, idSets.run ops [] = some (sets, flags) →
        (∀ s ∈ sets, s.Agrees) ∧ ∀ s ∈ sets, ∀ t ∈ sets, s.width = t.width → s.Compare t :=
  ⟨wordSets_hom.run ops [], belows_hom.run ops [], fun _ _ _ =>
    ⟨fun s _ => s.agrees, fun _ _ _ _ => compare_of_width_eq⟩⟩

/-- A full set is cut off inside its last word and grows again; what was cut off does not come back. -/
def regrown : List SetOp :=
  [.full 70, .resize 0 66, .resize 1 130, .clone 2, .clear 3, .insert 3 69, .insert 3 130, .union 2 3, .sdiff 3 2,
    .erase 0 70, .erase 0 5]

/-- Set 2 is given back one of the ids that were cut off; ids at or past a width are neither put in nor taken out. -/
theorem runs_agree_regrown :
    ∃ sets flags, idSets.run regrown [] = some (sets, flags) ∧ flags = [true, false, true, false, true] ∧
      sets.map count = [69, 66, 67, 0] ∧
      wordSets.run regrown [] = some (sets.map toWords, flags) ∧
      belows.run regrown [] = some (sets.map toBelow, flags) ∧
      ∀ s ∈ sets, s.Agrees := by
  obtain ⟨⟨sets, flags⟩, hrun⟩ : ∃ result, idSets.run regrown [] = some result :=
    Option.isSome_iff_exists.mp (by decide +kernel)
  have hout : (idSets.run regrown []).map (fun result => (result.2, result.1.map count)) =
      some ([true, false, true, false, true], [69, 66, 67, 0]) := by
    decide +kernel
  rw [hrun, Option.map_some, Option.some.injEq, Prod.mk.injEq] at hout
  obtain ⟨hwords, hbelow, hagree⟩ := runs_agree regrown
  rw [hrun] at hwords hbelow
  exact ⟨sets, flags, hrun, hout.1, hout.2, hwords, hbelow, (hagree sets flags hrun).1⟩

end IdSet

end HierPlan
