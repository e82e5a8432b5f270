import HierPlan.IdSet.Words
import Mathlib.Algebra.Order.Ring.Nat

/-!
# Proofs/IdSet/Bit — words bit by bit

A word is its 64 bits (`Word.ext`), and each thing done to a word has a law of its bits.  The lowest bit that is set
is where the zeros below end, and **what is left of a word without its lowest bit are its other bits**
(`Word.bit_dropLowest`).
-/

namespace HierPlan.Word

variable {a b w : UInt64} {i j k : Nat}

/-! ## Laws of bits -/

/-- A word has no more than 64 bits. -/
theorem lt_of_bit (h : bit w j = true) : j < 64 := BitVec.lt_of_getLsbD h

/-- **Equal bits make equal words.** -/
theorem ext (h : ∀ j, bit a j = bit b j) : a = b :=
  UInt64.toBitVec_inj.mp (BitVec.eq_of_getLsbD_eq fun j _ => h j)

@[simp] theorem bit_zero : bit 0 j = false := BitVec.getLsbD_zero

@[simp] theorem bit_or : bit (a ||| b) j = (bit a j || bit b j) := BitVec.getLsbD_or

@[simp] theorem bit_and : bit (a &&& b) j = (bit a j && bit b j) := BitVec.getLsbD_and

@[simp] theorem bit_not : bit (~~~a) j = (decide (j < 64) && !bit a j) := BitVec.getLsbD_not

@[simp] theorem bit_all : bit all j = decide (j < 64) := by
  rw [all, bit_not, bit_zero, Bool.not_false, Bool.and_true]

/-- A bit of a word is a bit of the number it stands for. -/
theorem bit_eq_testBit : bit w j = w.toNat.testBit j := rfl

theorem toNat_single (hj : j < 64) : (single j).toNat = 2 ^ j := by
  have hpow : 2 ^ j < 2 ^ 64 := Nat.pow_lt_pow_right (by decide) hj
  rw [single, UInt64.toNat_shiftLeft, Nat.toUInt64, UInt64.toNat_ofNat', Nat.mod_mod_of_dvd _ (by decide),
    Nat.mod_eq_of_lt hj]
  exact (congrArg (· % 2 ^ 64) (Nat.one_shiftLeft j)).trans (Nat.mod_eq_of_lt hpow)

theorem bit_single (hj : j < 64) : bit (single j) k = decide (j = k) := by
  rw [bit_eq_testBit, toNat_single hj, Nat.testBit_two_pow]

theorem bit_below (hj : j < 64) : bit (below j) k = decide (k < j) := by
  have hpred : (below j).toNat = 2 ^ j - 1 := by
    rw [below, UInt64.toNat_sub_of_le, toNat_single hj]
    · rfl
    · rw [UInt64.le_iff_toNat_le, toNat_single hj]
      exact Nat.two_pow_pos j
  rw [bit_eq_testBit, hpred, Nat.testBit_two_pow_sub_one]

/-- A word has a bit if the mask of that bit leaves anything of it. -/
theorem and_single_eq_zero (hj : j < 64) : w &&& single j = 0 ↔ bit w j = false := by
  constructor
  · intro h
    have hbit := congrArg (bit · j) h
    simpa [bit_single hj] using hbit
  · intro h
    refine ext fun k => ?_
    rw [bit_and, bit_single hj, bit_zero]
    by_cases hk : j = k
    · rw [← hk, h, Bool.false_and]
    · rw [decide_eq_false hk, Bool.and_false]

/-! ## The lowest bit -/

theorem bit_trailingZeros (hw : w ≠ 0) : bit w (trailingZeros w) = true :=
  BitVec.getLsbD_true_ctz_of_ne_zero fun h => hw (UInt64.toBitVec_inj.mp h)

theorem bit_of_lt_trailingZeros (hj : j < trailingZeros w) : bit w j = false :=
  BitVec.getLsbD_false_of_lt_ctz hj

/-- A number whose lowest bit is bit `z` is an odd multiple of a power of two. -/
theorem exists_eq_two_pow_mul {n z : Nat} (hbit : n.testBit z = true) (hlow : ∀ j < z, n.testBit j = false) :
    ∃ m, n = 2 ^ z * (2 * m + 1) := by
  have hmod : n % 2 ^ z = 0 := Nat.eq_of_testBit_eq fun j => by
    rw [Nat.testBit_mod_two_pow, Nat.zero_testBit]
    by_cases hj : j < z
    · rw [hlow j hj, Bool.and_false]
    · rw [decide_eq_false hj, Bool.false_and]
  obtain ⟨q, rfl⟩ := Nat.dvd_of_mod_eq_zero hmod
  have hodd : q % 2 = 1 := by
    rw [Nat.testBit_two_pow_mul, Nat.sub_self, Nat.testBit_zero] at hbit
    simpa using hbit
  exact ⟨q / 2, by rw [show 2 * (q / 2) + 1 = q by omega]⟩

/-- **A word without its lowest bit has its other bits.** -/
theorem bit_dropLowest (hw : w ≠ 0) : bit (dropLowest w) j = (bit w j && decide (j ≠ trailingZeros w)) := by
  obtain ⟨m, hm⟩ := exists_eq_two_pow_mul (n := w.toNat) (z := trailingZeros w) (bit_trailingZeros hw)
    fun _ => bit_of_lt_trailingZeros
  generalize trailingZeros w = z at hm ⊢
  have hpos : 0 < 2 ^ z := Nat.two_pow_pos z
  have hpred : (w - 1).toNat = 2 ^ z * (2 * m) + (2 ^ z - 1) := by
    have hle : 1 ≤ w.toNat := hm ▸ Nat.mul_pos hpos (Nat.succ_pos _)
    rw [UInt64.toNat_sub_of_le w 1 (UInt64.le_iff_toNat_le.mpr hle), hm, Nat.mul_succ]
    exact Nat.add_sub_assoc hpos _
  rw [dropLowest, bit_and, bit_eq_testBit, bit_eq_testBit, hpred,
    Nat.testBit_two_pow_mul_add _ (Nat.sub_one_lt_of_lt hpos), hm, Nat.testBit_two_pow_mul]
  -- the bits below are none, the lowest one goes, and those above are the same
  obtain hj | rfl | hj := Nat.lt_trichotomy j z
  · simp [Nat.not_le.mpr hj]
  · simp
  · obtain ⟨k, rfl⟩ := Nat.exists_eq_add_of_lt hj
    rw [if_neg (by omega), show z + k + 1 - z = k + 1 by omega, Nat.testBit_succ, Nat.testBit_succ,
      show 2 * m / 2 = (2 * m + 1) / 2 by omega]
    simp [show z ≤ z + k + 1 by omega, show z + k + 1 ≠ z by omega]

/-! ## Counting -/

/-- The places of the bits that are set. -/
def places (w : UInt64) : List Nat := (List.range 64).filter (bit w)

/-- **Bits are counted one by one.** -/
theorem ones_eq : ones w = (places w).length := by
  suffices hcount : ∀ n acc, w.toBitVec.cpopNatRec n acc = acc + ((List.range n).filter (bit w)).length by
    rw [ones, BitVec.toNat_cpop, hcount, Nat.zero_add, places]
  intro n
  induction n with
  | zero => exact fun acc => rfl
  | succ n ih =>
    intro acc
    rw [BitVec.cpopNatRec_succ, ih, List.range_succ, List.filter_append, List.length_append]
    change acc + (bit w n).toNat + _ = _
    cases hb : bit w n with
    | false => simp [hb]
    | true =>
      simp [hb]
      omega

end HierPlan.Word
