import HierPlan.IdSet

/-!
# IdSet/Words — sets of ids in 64-bit words

    id = 64 · k + j        bit `j` of word `k`

A `WordSet` keeps its ids in as many words as the width takes, and works on whole words: ids are put in and taken out
under a mask, sets are combined word by word, and what stands past the width is masked off the last word.  A cursor
(`Ones`) goes through the ids of a set: it takes the lowest bit off the current word, and passes over empty words.
-/

namespace HierPlan

namespace Word

/-- Bit `j` of a word. -/
def bit (w : UInt64) (j : Nat) : Bool := w.toBitVec.getLsbD j

/-- The word of bit `j` alone. -/
def single (j : Nat) : UInt64 := 1 <<< j.toUInt64

/-- The word of the bits below `j`. -/
def below (j : Nat) : UInt64 := single j - 1

/-- The word of all bits. -/
def all : UInt64 := ~~~0

/-- How many bits are set. -/
def ones (w : UInt64) : Nat := w.toBitVec.cpop.toNat

/-- How many bits are set in all the words. -/
def onesIn (l : List UInt64) : Nat := l.foldr (fun w n => ones w + n) 0

/-- How many bits stand below the lowest one that is set. -/
def trailingZeros (w : UInt64) : Nat := w.toBitVec.ctz.toNat

/-- The word without the lowest bit that is set. -/
def dropLowest (w : UInt64) : UInt64 := w &&& (w - 1)

end Word

/-! ## Going through the ids -/

/-- A place in the words of a set: the current word, and what is left of it. -/
structure Ones where
  words : List UInt64
  index : Nat
  current : UInt64

namespace Ones

/-- The least id that is left, and the cursor after it. -/
def next? (o : Ones) : Option (Nat × Ones) :=
  if o.current ≠ 0 then
    some (64 * o.index + Word.trailingZeros o.current, { o with current := Word.dropLowest o.current })
  else
    match _h : o.words[o.index + 1]? with
    | none => none
    | some w => next? { o with index := o.index + 1, current := w }
termination_by o.words.length - o.index
decreasing_by
  have hlt := (List.getElem?_eq_some_iff.mp _h).1
  omega

/-- The words that are left, and what is left of the current one. -/
def left (o : Ones) : Nat × Nat := (o.words.length - o.index, o.current.toNat)

/-- A bit that is dropped makes a word smaller. -/
theorem dropLowest_lt {w : UInt64} (hw : w ≠ 0) : (Word.dropLowest w).toNat < w.toNat := by
  have hpos : 0 < w.toNat := Nat.pos_of_ne_zero fun h => hw (UInt64.toNat_inj.mp h)
  have hpred : (w - 1).toNat = w.toNat - 1 := UInt64.toNat_sub_of_le w 1 (UInt64.le_iff_toNat_le.mpr hpos)
  calc (Word.dropLowest w).toNat = w.toNat &&& (w - 1).toNat := UInt64.toNat_and ..
    _ ≤ (w - 1).toNat := Nat.and_le_right
    _ < w.toNat := by omega

/-- **A cursor leaves less than there was.** -/
theorem left_of_next? {o o' : Ones} {i : Nat} (h : o.next? = some (i, o')) :
    Prod.Lex (· < ·) (· < ·) o'.left o.left := by
  induction o using next?.induct with
  | case1 o hcurrent =>
    rw [next?, if_pos hcurrent] at h
    cases h
    exact .right _ (dropLowest_lt hcurrent)
  | case2 o hcurrent hnone =>
    rw [next?, if_neg hcurrent, hnone] at h
    cases h
  | case3 o hcurrent w hsome ih =>
    rw [next?, if_neg hcurrent, hsome] at h
    have hlt := (List.getElem?_eq_some_iff.mp hsome).1
    have hle : o'.left.1 ≤ o.words.length - (o.index + 1) := by
      cases Prod.lex_def.mp (ih h) with
      | inl hless => exact Nat.le_of_lt hless
      | inr hsame => exact Nat.le_of_eq hsame.1
    exact Prod.lex_def.mpr (.inl (Nat.lt_of_le_of_lt hle (by dsimp only [left]; omega)))

/-- All ids that are left, in the order in which the cursor comes to them. -/
def toList (o : Ones) : List Nat :=
  match _h : o.next? with
  | none => []
  | some (i, o') => i :: o'.toList
termination_by o.left
decreasing_by exact left_of_next? _h

end Ones

/-! ## Sets -/

/-- A set of ids below a width, in words. -/
structure WordSet where
  words : List UInt64
  width : Nat
  deriving DecidableEq

namespace WordSet

/-- The word that bit `id` stands in. -/
def wordOf (s : WordSet) (id : Nat) : UInt64 := s.words.getD (id / 64) 0

/-- The set with the bits past its width masked off the last word. -/
def maskTail (s : WordSet) : WordSet :=
  if s.width % 64 = 0 then s
  else { s with words := s.words.modify (s.words.length - 1) (· &&& Word.below (s.width % 64)) }

/-- The set with no member. -/
def empty (width : Nat) : WordSet := ⟨List.replicate (IdSet.wordCount width) 0, width⟩

/-- The set of every id below the width. -/
def full (width : Nat) : WordSet := maskTail ⟨List.replicate (IdSet.wordCount width) Word.all, width⟩

/-- The set with an id put in, and whether it is new; an id at or past the width changes nothing. -/
def insert (s : WordSet) (id : Nat) : WordSet × Bool :=
  if s.width ≤ id then (s, false)
  else
    ({ s with words := s.words.modify (id / 64) (· ||| Word.single (id % 64)) },
      s.wordOf id &&& Word.single (id % 64) == 0)

/-- The set with an id taken out, and whether it was in. -/
def erase (s : WordSet) (id : Nat) : WordSet × Bool :=
  if s.width ≤ id then (s, false)
  else
    ({ s with words := s.words.modify (id / 64) (· &&& ~~~Word.single (id % 64)) },
      s.wordOf id &&& Word.single (id % 64) != 0)

/-- The set of the listed ids; those at or past the width are dropped. -/
def ofList (width : Nat) (ids : List Nat) : WordSet := ids.foldl (fun s id => (s.insert id).1) (empty width)

/-- The set without its members. -/
def clear (s : WordSet) : WordSet := { s with words := s.words.map fun _ => 0 }

/-- The same ids in another width: words are cut off or added, and what stands past the width is masked. -/
def resize (s : WordSet) (width : Nat) : WordSet :=
  maskTail ⟨(s.words ++ List.replicate (IdSet.wordCount width) 0).take (IdSet.wordCount width), width⟩

/-- Everything in either set, and whether that is more than the first one had. -/
def union (s t : WordSet) : WordSet × Bool :=
  ({ s with words := s.words.zipWith (· ||| ·) t.words }, (s.words.zip t.words).any fun (a, b) => a ||| b != a)

/-- Everything in both sets. -/
def inter (s t : WordSet) : WordSet := { s with words := s.words.zipWith (· &&& ·) t.words }

/-- Everything in the first set and not in the second. -/
def sdiff (s t : WordSet) : WordSet := { s with words := s.words.zipWith (fun a b => a &&& ~~~b) t.words }

/-- Whether an id is in the set. -/
def contains (s : WordSet) (id : Nat) : Bool :=
  decide (id < s.width) && (s.wordOf id &&& Word.single (id % 64) != 0)

/-- How many members the set has. -/
def count (s : WordSet) : Nat := Word.onesIn s.words

/-- Whether the set has no member. -/
def isEmpty (s : WordSet) : Bool := s.words.all (· == 0)

/-- Whether every id below the width is in the set. -/
def isFull (s : WordSet) : Bool := s.count == s.width

/-- Whether every member of `s` is in `t`. -/
def isSubset (s t : WordSet) : Bool := (s.words.zip t.words).all fun (a, b) => a &&& ~~~b == 0

/-- Whether the sets have no common member. -/
def isDisjoint (s t : WordSet) : Bool := (s.words.zip t.words).all fun (a, b) => a &&& b == 0

/-- How many members the sets have in common. -/
def common (s t : WordSet) : Nat := Word.onesIn ((s.words.zip t.words).map fun (a, b) => a &&& b)

/-- A cursor before the least member. -/
def ones (s : WordSet) : Ones := ⟨s.words, 0, s.words.headD 0⟩

/-- The members in the order in which a cursor comes to them. -/
def toList (s : WordSet) : List Nat := s.ones.toList

end WordSet

end HierPlan
