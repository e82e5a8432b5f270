import HierPlan.Proofs.IdSet.Cursor
import HierPlan.Proofs.IdSet.Script

/-!
# Proofs/IdSet/Layout — words that lay out a set

    id       0 … 63   64 … 127   128 … width
    word        0         1           2       ⟵ zero from the width on

A set of ids is laid out in words (`IdSet.toWords`), bit by bit.  Sets of words of the same width and number of words
are equal if their bits are (`WordSet.ext`), so what is done to whole words is known by its bits, and **whatever is
done to a layout is the layout of what is done to the set** (`wordSets_hom`).
-/

namespace HierPlan

/-! ## Lists of words -/

section Words

variable {l r : List UInt64} {f : UInt64 → UInt64 → UInt64} {k m n : Nat} {a : UInt64}

theorem getD_replicate : (List.replicate n a).getD k 0 = if k < n then a else 0 := by
  rw [List.getD_eq_getElem?_getD, List.getElem?_replicate]
  split <;> rfl

theorem getD_of_length_le (hk : l.length ≤ k) : l.getD k 0 = 0 := by
  rw [List.getD_eq_getElem?_getD, List.getElem?_eq_none hk, Option.getD_none]

theorem getD_modify (g : UInt64 → UInt64) (hm : m < l.length) :
    (l.modify m g).getD k 0 = if m = k then g (l.getD k 0) else l.getD k 0 := by
  rw [List.getD_eq_getElem?_getD, List.getElem?_modify, List.getD_eq_getElem?_getD]
  by_cases hk : m = k
  · subst hk
    simp [List.getElem?_eq_getElem hm]
  · simp [hk]

theorem getD_zipWith (hf : f 0 0 = 0) (hlength : l.length = r.length) :
    (List.zipWith f l r).getD k 0 = f (l.getD k 0) (r.getD k 0) := by
  by_cases hk : k < l.length
  · simp [List.getD_eq_getElem?_getD, List.getElem?_zipWith, List.getElem?_eq_getElem hk,
      List.getElem?_eq_getElem (hlength ▸ hk)]
  · have hr : r.length ≤ k := hlength ▸ Nat.not_lt.mp hk
    rw [getD_of_length_le (by rw [List.length_zipWith]; omega), getD_of_length_le (Nat.not_lt.mp hk),
      getD_of_length_le hr, hf]

theorem getD_take_append : ((l ++ List.replicate n 0).take n).getD k 0 = if k < n then l.getD k 0 else 0 := by
  rw [List.getD_eq_getElem?_getD, List.getElem?_take]
  split
  · by_cases hl : k < l.length
    · rw [List.getElem?_append_left hl, List.getD_eq_getElem?_getD]
    · rw [List.getElem?_append_right (Nat.not_lt.mp hl), ← List.getD_eq_getElem?_getD, getD_replicate,
        getD_of_length_le (Nat.not_lt.mp hl), ite_self]
  · rfl

/-- A word changes if and only if the words do. -/
theorem any_zip_bne (hlength : l.length = r.length) :
    ((l.zip r).any fun (a, b) => f a b != a) = true ↔ List.zipWith f l r ≠ l := by
  induction l generalizing r with
  | nil => simp
  | cons a l ih =>
    cases r with
    | nil => cases hlength
    | cons b r =>
      rw [List.zip_cons_cons, List.any_cons, Bool.or_eq_true, ih (Nat.succ.inj hlength), bne_iff_ne,
        List.zipWith_cons_cons, ne_eq, ne_eq, ne_eq, List.cons.injEq, Decidable.not_and_iff_not_or_not]

end Words

/-! ## Sets of words, bit by bit -/

namespace WordSet

variable {v w : WordSet} {i id : Nat}

/-- Whether the bit of an id is set. -/
def get (w : WordSet) (i : Nat) : Bool := Word.bit (w.wordOf i) (i % 64)

/-- There are as many words as the width takes. -/
def Fits (w : WordSet) : Prop := w.words.length = IdSet.wordCount w.width

/-- Bit `j` of word `k` is that of its id. -/
theorem get_mul_add {k j : Nat} (hj : j < 64) : w.get (64 * k + j) = Word.bit (w.words.getD k 0) j := by
  rw [get, wordOf, Nat.mul_add_mod, Nat.mod_eq_of_lt hj, Nat.mul_add_div (by decide), Nat.div_eq_of_lt hj, Nat.add_zero]

/-- **Equal widths, as many words and equal bits make equal sets.** -/
theorem ext (hwidth : v.width = w.width) (hlength : v.words.length = w.words.length)
    (hget : ∀ i, v.get i = w.get i) : v = w := by
  obtain ⟨l, width⟩ := v
  obtain ⟨r, width'⟩ := w
  cases hwidth
  have hwords : l = r := by
    refine List.ext_getElem hlength fun k hl hr => Word.ext fun j => ?_
    by_cases hj : j < 64
    · have hbit := hget (64 * k + j)
      rw [get_mul_add hj, get_mul_add hj] at hbit
      simpa [List.getD_eq_getElem?_getD, List.getElem?_eq_getElem hl, List.getElem?_eq_getElem hr] using hbit
    · have hnone : ∀ u : UInt64, Word.bit u j = false := fun u =>
        Bool.eq_false_iff.mpr fun h => hj (Word.lt_of_bit h)
      rw [hnone, hnone]
  rw [hwords]

/-- There is no bit where there is no word. -/
theorem get_of_length_le (hi : 64 * w.words.length ≤ i) : w.get i = false := by
  rw [get, wordOf, getD_of_length_le (by omega), Word.bit_zero]

/-- A bit is asked for under its mask. -/
theorem single_bne (w : WordSet) (id : Nat) : (w.wordOf id &&& Word.single (id % 64) != 0) = w.get id := by
  have hzero := Word.and_single_eq_zero (w := w.wordOf id) (Nat.mod_lt id (by decide : 0 < 64))
  cases hget : w.get id with
  | false => rw [bne_eq_false_iff_eq]; exact hzero.mpr hget
  | true => rw [bne_iff_ne]; exact fun h => by rw [get, hzero.mp h] at hget; cases hget

theorem lt_length (hw : w.Fits) (hi : i < w.width) : i / 64 < w.words.length := by
  rw [hw, IdSet.wordCount]
  omega

/-- Past the width there may be bits of the last word only. -/
theorem get_and_lt (hw : w.Fits) (hi : i / 64 + 1 ≠ w.words.length ∨ w.width % 64 = 0) :
    w.get i = (w.get i && decide (i < w.width)) := by
  by_cases hlt : i < w.width
  · rw [decide_eq_true hlt, Bool.and_true]
  · rw [get_of_length_le, Bool.false_and]
    rw [Fits, IdSet.wordCount] at hw
    omega

/-- **The mask of the tail leaves the bits below the width.** -/
theorem get_maskTail (hw : w.Fits) : w.maskTail.get i = (w.get i && decide (i < w.width)) := by
  unfold maskTail
  split
  · rename_i hrem
    exact get_and_lt hw (.inr hrem)
  · rename_i hrem
    have hlength := hw
    rw [Fits, IdSet.wordCount] at hlength
    rw [get, wordOf, getD_modify _ (by omega)]
    split
    · rename_i hlast
      rw [Word.bit_and, Word.bit_below (Nat.mod_lt _ (by decide))]
      exact congrArg (w.get i && ·) (decide_eq_decide.mpr (by omega))
    · rename_i hlast
      exact get_and_lt hw (.inl (by omega))

@[simp] theorem width_maskTail : w.maskTail.width = w.width := by
  unfold maskTail
  split <;> rfl

theorem fits_maskTail (hw : w.Fits) : w.maskTail.Fits := by
  unfold maskTail
  split
  · exact hw
  · exact (List.length_modify ..).trans hw

theorem get_insert (hw : w.Fits) : (w.insert id).1.get i = (w.get i || decide (i = id ∧ id < w.width)) := by
  unfold insert
  split
  · rename_i hid
    rw [decide_eq_false (by omega), Bool.or_false]
  · rename_i hid
    rw [get, wordOf, getD_modify _ (lt_length hw (Nat.not_le.mp hid))]
    split
    · rename_i hword
      rw [Word.bit_or, Word.bit_single (Nat.mod_lt _ (by decide))]
      exact congrArg (w.get i || ·) (decide_eq_decide.mpr (by omega))
    · rename_i hword
      rw [decide_eq_false (by omega), Bool.or_false]
      rfl

@[simp] theorem width_insert : (w.insert id).1.width = w.width := by
  unfold insert
  split <;> rfl

theorem fits_insert (hw : w.Fits) : (w.insert id).1.Fits := by
  unfold insert
  split
  · exact hw
  · exact (List.length_modify ..).trans hw

/-- It is told whether an id is new. -/
theorem told_insert : (w.insert id).2 = (decide (id < w.width) && !w.get id) := by
  unfold insert
  split
  · rename_i hid
    rw [decide_eq_false (Nat.not_lt.mpr hid), Bool.false_and]
  · rename_i hid
    rw [decide_eq_true (Nat.not_le.mp hid), Bool.true_and, ← single_bne, bne, Bool.not_not]

theorem get_erase (hw : w.Fits) (hid : id < w.width) : (w.erase id).1.get i = (w.get i && decide (i ≠ id)) := by
  rw [erase, if_neg (Nat.not_le.mpr hid), get, wordOf, getD_modify _ (lt_length hw hid)]
  split
  · rename_i hword
    rw [Word.bit_and, Word.bit_not, Word.bit_single (Nat.mod_lt _ (by decide)),
      decide_eq_true (Nat.mod_lt i (by decide)), Bool.true_and, ← decide_not]
    exact congrArg (w.get i && ·) (decide_eq_decide.mpr (by omega))
  · rename_i hword
    rw [decide_eq_true (by omega), Bool.and_true]
    rfl

/-- What is done word by word is done bit by bit. -/
theorem get_zipWith {f : UInt64 → UInt64 → UInt64} (hf : f 0 0 = 0) (hlength : v.words.length = w.words.length) :
    get ⟨List.zipWith f v.words w.words, v.width⟩ i = Word.bit (f (v.wordOf i) (w.wordOf i)) (i % 64) := by
  rw [get, wordOf, getD_zipWith hf hlength]
  rfl

end WordSet

/-! ## Layouts -/

namespace IdSet

variable {s t : IdSet} {i id width : Nat}

/-- The words that lay out a set. -/
def toWords (s : IdSet) : WordSet := ⟨s.words, s.width⟩

theorem fits_toWords (s : IdSet) : s.toWords.Fits := by
  rw [WordSet.Fits, toWords, words, List.length_map, List.length_range]

theorem contains_eq_testBit : s.contains i = s.bits.testBit i := Bool.eq_iff_iff.mpr mem_iff_testBit

/-- **A layout has the bits of the members.** -/
@[simp] theorem get_toWords : s.toWords.get i = s.contains i := by
  by_cases hk : i / 64 < wordCount s.width
  · have hword : s.toWords.wordOf i = (s.bits >>> (64 * (i / 64))).toUInt64 := by
      rw [WordSet.wordOf, toWords, words, List.getD_eq_getElem?_getD, List.getElem?_map, List.getElem?_range hk]
      rfl
    rw [WordSet.get, hword, Word.bit_eq_testBit, Nat.toUInt64, UInt64.toNat_ofNat', Nat.testBit_mod_two_pow,
      Nat.testBit_shiftRight, decide_eq_true (Nat.mod_lt i (by decide)), Bool.true_and, Nat.div_add_mod,
      contains_eq_testBit]
  · have hi : s.width ≤ i := by
      rw [wordCount] at hk
      omega
    rw [contains_eq_testBit, testBit_of_width_le hi, WordSet.get_of_length_le]
    rw [fits_toWords, wordCount]
    change 64 * ((s.width + 63) / 64) ≤ i
    rw [wordCount] at hk
    omega

/-- A bit of a layout says whether its id is in. -/
theorem bit_wordOf : Word.bit (s.toWords.wordOf i) (i % 64) = true ↔ i ∈ s := Bool.eq_iff_iff.mp get_toWords

/-- An id below the width has its word. -/
theorem div_lt_wordCount (hi : i < width) : i / 64 < wordCount width := by
  rw [wordCount]
  omega

/-- **What has the bits of a set, in as many words, is its layout.** -/
theorem eq_toWords {w : WordSet} (hwidth : w.width = s.width) (hw : w.Fits) (hget : ∀ i, w.get i = true ↔ i ∈ s) :
    w = s.toWords := by
  refine WordSet.ext hwidth ?_ fun i => (Bool.eq_iff_iff.mpr (hget i)).trans get_toWords.symm
  rw [hw, fits_toWords, hwidth]
  rfl

/-- Sets with the same layout are the same. -/
theorem toWords_injective (h : s.toWords = t.toWords) : s = t := by
  refine ext (congrArg WordSet.width h) fun i => ?_
  rw [mem_def, mem_def, ← get_toWords, h, get_toWords]

theorem toWords_empty : WordSet.empty width = (empty width).toWords := by
  refine eq_toWords rfl List.length_replicate fun i => iff_of_false ?_ not_mem_empty
  rw [WordSet.get, WordSet.wordOf, WordSet.empty, getD_replicate, ite_self, Word.bit_zero]
  exact Bool.false_ne_true

theorem toWords_full : WordSet.full width = (full width).toWords := by
  have hfits : WordSet.Fits ⟨List.replicate (wordCount width) Word.all, width⟩ := List.length_replicate
  refine eq_toWords WordSet.width_maskTail (WordSet.fits_maskTail hfits) fun i => ?_
  rw [WordSet.full, WordSet.get_maskTail hfits, Bool.and_eq_true, decide_eq_true_iff, mem_full]
  refine and_iff_right_of_imp fun hi => ?_
  rw [WordSet.get, WordSet.wordOf, getD_replicate, if_pos (div_lt_wordCount hi), Word.bit_all]
  exact decide_eq_true (Nat.mod_lt i (by decide))

theorem toWords_insert : s.toWords.insert id = ((s.insert id).toWords, s.canInsert id) := by
  refine Prod.ext ?_ ?_
  · refine eq_toWords ?_ (WordSet.fits_insert s.fits_toWords) fun i => ?_
    · rw [WordSet.width_insert, width_insert]
      rfl
    · rw [WordSet.get_insert s.fits_toWords, Bool.or_eq_true, get_toWords, decide_eq_true_iff, mem_insert]
      rfl
  · rw [WordSet.told_insert, get_toWords]
    rfl

theorem toWords_erase : s.toWords.erase id = ((s.erase id).toWords, s.contains id) := by
  by_cases hid : id < s.width
  · refine Prod.ext ?_ ?_
    · have hwords : (s.toWords.erase id).1 = ⟨_, s.width⟩ := congrArg Prod.fst (if_neg (Nat.not_le.mpr hid))
      refine eq_toWords ?_ ?_ fun i => ?_
      · rw [hwords, width_erase]
      · rw [hwords]
        exact (List.length_modify ..).trans s.fits_toWords
      · rw [WordSet.get_erase s.fits_toWords hid, Bool.and_eq_true, get_toWords, decide_eq_true_iff, mem_erase]
        rfl
    · exact (congrArg Prod.snd (if_neg (Nat.not_le.mpr hid))).trans ((s.toWords.single_bne id).trans get_toWords)
  · have hout : s.contains id = false := by rw [contains, decide_eq_false hid, Bool.false_and]
    rw [erase, hout]
    exact if_pos (Nat.not_lt.mp hid)

theorem toWords_ofList {ids : List Nat} : WordSet.ofList width ids = (ofList width ids).toWords := by
  suffices hfold : ∀ s : IdSet, ids.foldl (fun w id => (w.insert id).1) s.toWords = (ids.foldl insert s).toWords by
    rw [WordSet.ofList, toWords_empty, hfold, ofList]
  induction ids with
  | nil => exact fun s => rfl
  | cons id rest ih =>
    intro s
    rw [List.foldl_cons, List.foldl_cons, toWords_insert, ih]

theorem toWords_clear : s.toWords.clear = (empty s.width).toWords := by
  refine eq_toWords rfl ((List.length_map ..).trans s.fits_toWords) fun i => iff_of_false ?_ not_mem_empty
  rw [WordSet.get, WordSet.wordOf, WordSet.clear, List.map_const', getD_replicate, ite_self, Word.bit_zero]
  exact Bool.false_ne_true

theorem toWords_resize : s.toWords.resize width = (s.resize width).toWords := by
  have hfits : WordSet.Fits
      ⟨(s.toWords.words ++ List.replicate (wordCount width) 0).take (wordCount width), width⟩ := by
    rw [WordSet.Fits, List.length_take, List.length_append, List.length_replicate]
    exact Nat.min_eq_left (Nat.le_add_left ..)
  refine eq_toWords WordSet.width_maskTail (WordSet.fits_maskTail hfits) fun i => ?_
  rw [WordSet.resize, WordSet.get_maskTail hfits, Bool.and_eq_true, decide_eq_true_iff, mem_resize]
  refine and_congr_left fun hi => ?_
  rw [WordSet.get, WordSet.wordOf, getD_take_append, if_pos (div_lt_wordCount hi)]
  exact bit_wordOf

/-- What is done word by word to layouts of the same width lays out what is done bit by bit. -/
theorem toWords_zipWith {f : UInt64 → UInt64 → UInt64} {u : IdSet} (hf : f 0 0 = 0) (hst : s.width = t.width)
    (hu : u.width = s.width)
    (hbit : ∀ i, Word.bit (f (s.toWords.wordOf i) (t.toWords.wordOf i)) (i % 64) = true ↔ i ∈ u) :
    ⟨List.zipWith f s.words t.words, s.width⟩ = u.toWords := by
  have hlength : s.toWords.words.length = t.toWords.words.length := by
    rw [s.fits_toWords, t.fits_toWords]
    exact congrArg wordCount hst
  refine eq_toWords hu.symm ?_ fun i => ?_
  · exact (List.length_zipWith.trans (hlength ▸ Nat.min_self _)).trans s.fits_toWords
  · exact (Bool.eq_iff_iff.mp (WordSet.get_zipWith (v := s.toWords) (w := t.toWords) hf hlength)).trans (hbit i)

theorem toWords_inter (hst : s.width = t.width) : s.toWords.inter t.toWords = (s.inter t).toWords :=
  toWords_zipWith rfl hst rfl fun i => by
    rw [Word.bit_and, Bool.and_eq_true, bit_wordOf, bit_wordOf, mem_inter]

theorem toWords_sdiff (hst : s.width = t.width) : s.toWords.sdiff t.toWords = (s.sdiff t).toWords :=
  toWords_zipWith rfl hst rfl fun i => by
    rw [Word.bit_and, Word.bit_not, decide_eq_true (Nat.mod_lt i (by decide)), Bool.true_and, Bool.and_eq_true,
      Bool.not_eq_true', ← Bool.not_eq_true, bit_wordOf, bit_wordOf, mem_sdiff]

theorem toWords_union (hst : s.width = t.width) : s.toWords.union t.toWords = ((s.union t).toWords, s.canGrow t) := by
  have hunion : (s.toWords.union t.toWords).1 = (s.union t).toWords := by
    refine toWords_zipWith rfl hst rfl fun i => ?_
    rw [Word.bit_or, Bool.or_eq_true, bit_wordOf, bit_wordOf, mem_union]
    exact or_congr_right (and_iff_left_of_imp fun hi => hst ▸ lt_width_of_mem hi).symm
  refine Prod.ext hunion (Bool.eq_iff_iff.mpr ?_)
  have hlength : s.toWords.words.length = t.toWords.words.length := by
    rw [s.fits_toWords, t.fits_toWords]
    exact congrArg wordCount hst
  rw [canGrow, decide_eq_true_iff]
  refine (any_zip_bne hlength).trans (not_congr ?_)
  constructor
  · intro h
    exact toWords_injective (hunion.symm.trans (congrArg (WordSet.mk · s.width) h))
  · intro h
    exact congrArg WordSet.words (hunion.trans (congrArg toWords h))

end IdSet

/-- **Whatever is done to layouts is the layout of what is done to the sets.** -/
theorem wordSets_hom : SetKind.Hom idSets wordSets IdSet.toWords where
  width _ := rfl
  empty _ := IdSet.toWords_empty
  full _ := IdSet.toWords_full
  ofList _ _ := IdSet.toWords_ofList
  resize _ _ := IdSet.toWords_resize
  insert _ _ := IdSet.toWords_insert
  erase _ _ := IdSet.toWords_erase
  clear _ := IdSet.toWords_clear
  union _ _ := IdSet.toWords_union
  inter _ _ := IdSet.toWords_inter
  sdiff _ _ := IdSet.toWords_sdiff

end HierPlan
