/-!
# IdSet — sets of ids below a fixed width

States, preconditions, effects and landmark entries are all sets of small numbers whose bound is
known in advance.  An `IdSet` is one number, one bit per id, together with its width; the field
`bits_lt` keeps every bit at or past the width zero, so **equal widths and equal members make equal
sets** (`IdSet.ext`) and every operation is determined by its membership law (`mem_insert`,
`mem_union`, …).  `IdSet.words` lays the same bits out in 64-bit words.
-/

namespace HierPlan

/-- A set of ids below `width`, written as the number whose bit `i` says whether `i` is in. -/
structure IdSet where
  /-- Ids at or past the width are never in the set. -/
  width : Nat
  /-- Bit `i` is set exactly when `i` is in the set. -/
  bits : Nat
  /-- No bit at or past the width is set. -/
  bits_lt : bits < 1 <<< width
  deriving DecidableEq

namespace IdSet

/-- Whether `i` is in the set. -/
def contains (s : IdSet) (i : Nat) : Bool :=
  decide (i < s.width) && s.bits.testBit i

instance : Membership Nat IdSet := ⟨fun s i => s.contains i = true⟩

instance (i : Nat) (s : IdSet) : Decidable (i ∈ s) :=
  inferInstanceAs (Decidable (s.contains i = true))

theorem mem_def {s : IdSet} {i : Nat} : i ∈ s ↔ s.contains i = true := Iff.rfl

theorem testBit_of_width_le {s : IdSet} {i : Nat} (h : s.width ≤ i) :
    s.bits.testBit i = false := by
  have hlt := s.bits_lt
  rw [Nat.one_shiftLeft] at hlt
  exact Nat.testBit_lt_two_pow (Nat.lt_of_lt_of_le hlt (Nat.pow_le_pow_right (by decide) h))

/-- **Membership is a bit** — the width adds no condition, the bits past it being zero. -/
theorem mem_iff_testBit {s : IdSet} {i : Nat} : i ∈ s ↔ s.bits.testBit i = true := by
  refine ⟨fun h => ?_, fun h => ?_⟩
  · rw [mem_def, contains, Bool.and_eq_true] at h
    exact h.2
  · have hi : i < s.width := by
      refine Nat.lt_of_not_le fun hle => ?_
      rw [testBit_of_width_le hle] at h
      cases h
    rw [mem_def, contains, Bool.and_eq_true]
    exact ⟨decide_eq_true hi, h⟩

theorem lt_width_of_mem {s : IdSet} {i : Nat} (h : i ∈ s) : i < s.width := by
  rw [mem_def, contains, Bool.and_eq_true] at h
  exact of_decide_eq_true h.1

/-- **A set is its width and its members.** -/
theorem ext {s t : IdSet} (hw : s.width = t.width) (h : ∀ i, i ∈ s ↔ i ∈ t) : s = t := by
  have hb : s.bits = t.bits := Nat.eq_of_testBit_eq fun i =>
    Bool.eq_iff_iff.2 (by rw [← mem_iff_testBit, ← mem_iff_testBit]; exact h i)
  obtain ⟨w, b, hs⟩ := s
  obtain ⟨w', b', ht⟩ := t
  cases hw
  cases hb
  rfl

/-! ## Building -/

/-- The set of the low `width` bits of `n`. -/
def ofBits (width n : Nat) : IdSet :=
  ⟨width, n % 1 <<< width, Nat.mod_lt _ (Nat.one_shiftLeft width ▸ Nat.two_pow_pos width)⟩

@[simp] theorem width_ofBits (width n : Nat) : (ofBits width n).width = width := rfl

@[simp] theorem mem_ofBits {width n i : Nat} :
    i ∈ ofBits width n ↔ i < width ∧ n.testBit i = true := by
  rw [mem_iff_testBit]
  change (n % 1 <<< width).testBit i = true ↔ _
  rw [Nat.one_shiftLeft, Nat.testBit_mod_two_pow, Bool.and_eq_true, decide_eq_true_iff]

/-- The set with no member. -/
def empty (width : Nat) : IdSet := ofBits width 0

@[simp] theorem width_empty (width : Nat) : (empty width).width = width := rfl

@[simp] theorem not_mem_empty {width i : Nat} : i ∉ empty width := by
  rw [empty, mem_ofBits, Nat.zero_testBit]
  simp

/-- The set of every id below `width`. -/
def full (width : Nat) : IdSet := ofBits width (1 <<< width - 1)

@[simp] theorem width_full (width : Nat) : (full width).width = width := rfl

@[simp] theorem mem_full {width i : Nat} : i ∈ full width ↔ i < width := by
  rw [full, mem_ofBits, Nat.one_shiftLeft, Nat.testBit_two_pow_sub_one]
  simp

/-- The set with `i` put in; an id at or past the width changes nothing. -/
def insert (s : IdSet) (i : Nat) : IdSet :=
  if i < s.width then ofBits s.width (s.bits ||| 1 <<< i) else s

@[simp] theorem width_insert (s : IdSet) (i : Nat) : (s.insert i).width = s.width := by
  unfold insert
  split <;> rfl

@[simp] theorem mem_insert {s : IdSet} {i j : Nat} :
    j ∈ s.insert i ↔ j ∈ s ∨ (j = i ∧ i < s.width) := by
  unfold insert
  split
  · rename_i h
    rw [mem_ofBits, Nat.testBit_or, Nat.one_shiftLeft, Nat.testBit_two_pow, Bool.or_eq_true, ← mem_iff_testBit,
      decide_eq_true_iff]
    refine ⟨fun ⟨_, hj⟩ => hj.imp id fun e => ⟨e.symm, h⟩, fun hj => ?_⟩
    rcases hj with hj | ⟨rfl, _⟩
    · exact ⟨lt_width_of_mem hj, Or.inl hj⟩
    · exact ⟨h, Or.inr rfl⟩
  · rename_i h
    exact ⟨Or.inl, fun hj => hj.elim id fun ⟨_, hi⟩ => absurd hi h⟩

/-- The set with `i` taken out. -/
def erase (s : IdSet) (i : Nat) : IdSet :=
  if s.contains i then ofBits s.width (s.bits ^^^ 1 <<< i) else s

@[simp] theorem width_erase (s : IdSet) (i : Nat) : (s.erase i).width = s.width := by
  unfold erase
  split <;> rfl

@[simp] theorem mem_erase {s : IdSet} {i j : Nat} : j ∈ s.erase i ↔ j ∈ s ∧ j ≠ i := by
  unfold erase
  split
  · rename_i h
    rw [mem_ofBits, Nat.testBit_xor, Nat.one_shiftLeft, Nat.testBit_two_pow]
    have hi : s.bits.testBit i = true := mem_iff_testBit.1 h
    by_cases hji : i = j
    · subst hji
      simp [hi]
    · have hij : j ≠ i := fun e => hji e.symm
      simp only [hji, decide_false, Bool.xor_false, ← mem_iff_testBit, ne_eq, hij,
        not_false_eq_true, and_true]
      exact ⟨fun hj => hj.2, fun hj => ⟨lt_width_of_mem hj, hj⟩⟩
  · rename_i h
    exact ⟨fun hj => ⟨hj, fun e => h (e ▸ hj)⟩, fun hj => hj.1⟩

/-- The set of the listed ids; those at or past the width are dropped. -/
def ofList (width : Nat) (ids : List Nat) : IdSet :=
  ids.foldl insert (empty width)

theorem width_foldl_insert (ids : List Nat) (s : IdSet) :
    (ids.foldl insert s).width = s.width := by
  induction ids generalizing s with
  | nil => rfl
  | cons i r ih => rw [List.foldl_cons, ih, width_insert]

theorem mem_foldl_insert {ids : List Nat} {s : IdSet} {j : Nat} :
    j ∈ ids.foldl insert s ↔ j ∈ s ∨ (j ∈ ids ∧ j < s.width) := by
  induction ids generalizing s with
  | nil => simp
  | cons i r ih =>
    rw [List.foldl_cons, ih, mem_insert, width_insert, List.mem_cons]
    constructor
    · rintro ((h | ⟨rfl, h⟩) | ⟨h, hw⟩)
      · exact Or.inl h
      · exact Or.inr ⟨Or.inl rfl, h⟩
      · exact Or.inr ⟨Or.inr h, hw⟩
    · rintro (h | ⟨rfl | h, hw⟩)
      · exact Or.inl (Or.inl h)
      · exact Or.inl (Or.inr ⟨rfl, hw⟩)
      · exact Or.inr ⟨h, hw⟩

@[simp] theorem width_ofList (width : Nat) (ids : List Nat) :
    (ofList width ids).width = width := by
  rw [ofList, width_foldl_insert, width_empty]

@[simp] theorem mem_ofList {width : Nat} {ids : List Nat} {j : Nat} :
    j ∈ ofList width ids ↔ j ∈ ids ∧ j < width := by
  rw [ofList, mem_foldl_insert, width_empty]
  simp

/-! ## Combining

The result has the width of the first set. -/

/-- Everything in either set. -/
def union (s t : IdSet) : IdSet := ofBits s.width (s.bits ||| t.bits)

@[simp] theorem width_union (s t : IdSet) : (s.union t).width = s.width := rfl

@[simp] theorem mem_union {s t : IdSet} {i : Nat} :
    i ∈ s.union t ↔ i ∈ s ∨ (i ∈ t ∧ i < s.width) := by
  rw [union, mem_ofBits, Nat.testBit_or, Bool.or_eq_true, ← mem_iff_testBit, ← mem_iff_testBit]
  constructor
  · rintro ⟨hw, h | h⟩
    · exact Or.inl h
    · exact Or.inr ⟨h, hw⟩
  · rintro (h | ⟨h, hw⟩)
    · exact ⟨lt_width_of_mem h, Or.inl h⟩
    · exact ⟨hw, Or.inr h⟩

/-- Everything in both sets. -/
def inter (s t : IdSet) : IdSet := ofBits s.width (s.bits &&& t.bits)

@[simp] theorem width_inter (s t : IdSet) : (s.inter t).width = s.width := rfl

@[simp] theorem mem_inter {s t : IdSet} {i : Nat} : i ∈ s.inter t ↔ i ∈ s ∧ i ∈ t := by
  rw [inter, mem_ofBits, Nat.testBit_and, Bool.and_eq_true, ← mem_iff_testBit, ← mem_iff_testBit]
  exact ⟨fun h => h.2, fun h => ⟨lt_width_of_mem h.1, h⟩⟩

/-- Everything in the first set and not in the second. -/
def sdiff (s t : IdSet) : IdSet := ofBits s.width (s.bits ^^^ (s.bits &&& t.bits))

@[simp] theorem width_sdiff (s t : IdSet) : (s.sdiff t).width = s.width := rfl

@[simp] theorem mem_sdiff {s t : IdSet} {i : Nat} : i ∈ s.sdiff t ↔ i ∈ s ∧ i ∉ t := by
  rw [sdiff, mem_ofBits, Nat.testBit_xor, Nat.testBit_and, mem_iff_testBit (s := t)]
  constructor
  · rintro ⟨_, h⟩
    cases hs : s.bits.testBit i <;> cases ht : t.bits.testBit i <;> simp_all [mem_iff_testBit]
  · rintro ⟨h, ht⟩
    refine ⟨lt_width_of_mem h, ?_⟩
    rw [mem_iff_testBit] at h
    simp_all

/-- The same ids in another width; ids at or past it are dropped. -/
def resize (s : IdSet) (width : Nat) : IdSet := ofBits width s.bits

@[simp] theorem width_resize (s : IdSet) (width : Nat) : (s.resize width).width = width := rfl

@[simp] theorem mem_resize {s : IdSet} {width i : Nat} :
    i ∈ s.resize width ↔ i ∈ s ∧ i < width := by
  rw [resize, mem_ofBits, ← mem_iff_testBit]
  exact And.comm

/-! ## Asking -/

/-- Whether putting `i` in would add it. -/
def canInsert (s : IdSet) (i : Nat) : Bool := decide (i < s.width) && !s.contains i

/-- Whether the union with `t` would add anything. -/
def canGrow (s t : IdSet) : Bool := decide (s.union t ≠ s)

/-- Whether every member of `s` is in `t`. -/
def isSubset (s t : IdSet) : Bool := s.bits &&& t.bits == s.bits

@[simp] theorem isSubset_iff {s t : IdSet} : s.isSubset t = true ↔ ∀ i ∈ s, i ∈ t := by
  rw [isSubset, beq_iff_eq]
  constructor
  · intro h i hi
    rw [mem_iff_testBit, ← h, Nat.testBit_and, Bool.and_eq_true] at hi
    exact mem_iff_testBit.2 hi.2
  · intro h
    refine Nat.eq_of_testBit_eq fun i => ?_
    rw [Nat.testBit_and]
    cases hs : s.bits.testBit i with
    | false => rfl
    | true => exact mem_iff_testBit.1 (h i (mem_iff_testBit.2 hs))

/-- Whether the sets have no common member. -/
def isDisjoint (s t : IdSet) : Bool := s.bits &&& t.bits == 0

@[simp] theorem isDisjoint_iff {s t : IdSet} : s.isDisjoint t = true ↔ ∀ i ∈ s, i ∉ t := by
  rw [isDisjoint, beq_iff_eq]
  constructor
  · intro h i hs ht
    have hz : (s.bits &&& t.bits).testBit i = true := by
      rw [Nat.testBit_and, mem_iff_testBit.1 hs, mem_iff_testBit.1 ht]
      rfl
    rw [h, Nat.zero_testBit] at hz
    cases hz
  · intro h
    refine Nat.eq_of_testBit_eq fun i => ?_
    rw [Nat.testBit_and, Nat.zero_testBit]
    cases hs : s.bits.testBit i with
    | false => rfl
    | true =>
      cases ht : t.bits.testBit i with
      | false => rfl
      | true => exact absurd (mem_iff_testBit.2 ht) (h i (mem_iff_testBit.2 hs))

/-- The members in ascending order. -/
def toList (s : IdSet) : List Nat := (List.range s.width).filter s.contains

@[simp] theorem mem_toList {s : IdSet} {i : Nat} : i ∈ s.toList ↔ i ∈ s := by
  rw [toList, List.mem_filter, List.mem_range]
  exact ⟨fun h => h.2, fun h => ⟨lt_width_of_mem h, h⟩⟩

/-- Ids are listed once each. -/
theorem nodup_toList (s : IdSet) : s.toList.Nodup := List.nodup_range.filter _

/-- How many members the set has. -/
def count (s : IdSet) : Nat := s.toList.length

/-- Whether the set has no member. -/
def isEmpty (s : IdSet) : Bool := s.bits == 0

/-- Whether every id below the width is in the set. -/
def isFull (s : IdSet) : Bool := s.count == s.width

/-- How many words `width` bits take. -/
def wordCount (width : Nat) : Nat := (width + 63) / 64

/-- The bits in 64-bit words, lowest ids first. -/
def words (s : IdSet) : List UInt64 :=
  (List.range (wordCount s.width)).map fun k => (s.bits >>> (64 * k)).toUInt64

instance : ToString IdSet :=
  ⟨fun s => "\x7b" ++ ", ".intercalate (s.toList.map toString) ++ "\x7d"⟩

end IdSet

end HierPlan
