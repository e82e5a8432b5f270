import HierPlan.Double.Parts
import Mathlib

/-!
# Proofs/Double/Order — the total order of doubles

    -∞   …   -1   …   -0   +0   …   1   …   +∞   undefined

Queues compare doubles by a number that their bits make up.  `Double.Below` says the order without it: what is signed
comes before what is not, and of two doubles of one sign the bits of exponent and fraction decide.  **The two are the
same** (`Double.compare_eq_lt`), **no two doubles compare equal** (`Double.compare_eq_eq`), and **a smaller number
comes before a larger one** (`Double.below_of_lt`).
-/

namespace HierPlan.Double

open Float.Model Float.Model.UnpackedFloat

/-- The bits of exponent and fraction. -/
def magnitude (x : Float) : Nat := x.toBits.toNat % signBit

/-- The total order of doubles. -/
def Below (x y : Float) : Prop :=
  match isSigned x, isSigned y with
  | true, false => True
  | false, true => False
  | false, false => magnitude x < magnitude y
  | true, true => magnitude y < magnitude x

variable {x y : Float}

/-- The bits of a double that is not signed are its magnitude. -/
theorem toNat_toBits_of_unsigned (hx : isSigned x = false) : x.toBits.toNat = magnitude x :=
  (Nat.mod_eq_of_lt (Nat.lt_of_not_le (of_decide_eq_false hx))).symm

/-- The bits of a signed double are the sign and its magnitude. -/
theorem toNat_toBits_of_signed (hx : isSigned x = true) : x.toBits.toNat = signBit + magnitude x := by
  have hle : signBit ≤ x.toBits.toNat := of_decide_eq_true hx
  have hrest : x.toBits.toNat - signBit < signBit := Nat.sub_lt_left_of_lt_add hle x.toBits.toNat_lt
  rw [magnitude, Nat.mod_eq_sub_mod hle, Nat.mod_eq_of_lt hrest, Nat.add_sub_cancel' hle]

/-- Doubles not signed rank past all signed ones. -/
theorem doubleRank_of_unsigned (hx : isSigned x = false) : doubleRank x = signBit + magnitude x := by
  rw [doubleRank, if_pos (Nat.lt_of_not_le (of_decide_eq_false hx)), toNat_toBits_of_unsigned hx, Nat.add_comm]

/-- Signed doubles rank the lower the larger their magnitude. -/
theorem doubleRank_of_signed (hx : isSigned x = true) : doubleRank x + magnitude x + 1 = signBit := by
  have hle : ¬ x.toBits.toNat < signBit := Nat.not_lt.mpr (of_decide_eq_true hx)
  have hlt := x.toBits.toNat_lt
  rw [toNat_toBits_of_signed hx] at hlt
  rw [doubleRank, if_neg hle, toNat_toBits_of_signed hx]
  simp only [signBit, maxWord] at *
  omega

theorem magnitude_lt (x : Float) : magnitude x < signBit := Nat.mod_lt _ (by decide)

/-- **The order of ranks is the total order.** -/
theorem doubleRank_lt : doubleRank x < doubleRank y ↔ Below x y := by
  unfold Below
  have hx := magnitude_lt x
  have hy := magnitude_lt y
  cases hsx : isSigned x <;> cases hsy : isSigned y <;> dsimp only
  · rw [doubleRank_of_unsigned hsx, doubleRank_of_unsigned hsy]
    omega
  · have hry := doubleRank_of_signed hsy
    rw [doubleRank_of_unsigned hsx]
    exact iff_of_false (by omega) id
  · have hrx := doubleRank_of_signed hsx
    rw [doubleRank_of_unsigned hsy]
    exact iff_of_true (by omega) trivial
  · have hrx := doubleRank_of_signed hsx
    have hry := doubleRank_of_signed hsy
    omega

instance : DecidableRel Below := fun _ _ => decidable_of_iff _ doubleRank_lt

/-- The zeros are two. -/
example : Below (-0.0) 0.0 := by decide +kernel

/-- Doubles of one rank are the same. -/
theorem doubleRank_inj (h : doubleRank x = doubleRank y) : x = y := by
  refine Float.toBits_inj.mp (UInt64.toNat_inj.mp ?_)
  have hx := magnitude_lt x
  have hy := magnitude_lt y
  cases hsx : isSigned x <;> cases hsy : isSigned y
  · rw [doubleRank_of_unsigned hsx, doubleRank_of_unsigned hsy] at h
    rw [toNat_toBits_of_unsigned hsx, toNat_toBits_of_unsigned hsy]
    omega
  · have hry := doubleRank_of_signed hsy
    rw [doubleRank_of_unsigned hsx] at h
    omega
  · have hrx := doubleRank_of_signed hsx
    rw [doubleRank_of_unsigned hsy] at h
    omega
  · have hrx := doubleRank_of_signed hsx
    have hry := doubleRank_of_signed hsy
    rw [toNat_toBits_of_signed hsx, toNat_toBits_of_signed hsy]
    omega

/-- **Queues compare doubles by the total order.** -/
theorem compare_eq_lt : Scale.compare x y = .lt ↔ Below x y :=
  Nat.compare_eq_lt.trans doubleRank_lt

/-- **No two doubles compare equal.** -/
theorem compare_eq_eq : Scale.compare x y = .eq ↔ x = y :=
  Nat.compare_eq_eq.trans ⟨doubleRank_inj, congrArg doubleRank⟩

instance transCmp : Std.TransCmp (Scale.compare : Float → Float → Ordering) :=
  inferInstanceAs (Std.TransCmp (compareOn doubleRank))

/-! ## Numbers -/

/-- The number that sign and magnitude stand for. -/
inductive Reading (s : Sign) (k : Nat) : UnpackedFloat → Prop where
  | zero (none : k = 0) : Reading s k (.zero s)
  | finite {m : Nat} {e : Int} (pos : 0 < m) (low : -1074 ≤ e) (high : m < 2 ^ 53) (full : e = -1074 ∨ 2 ^ 52 ≤ m)
      (size : (k : Int) = (e + 1074) * 2 ^ 52 + m) (range : k < 2047 * 2 ^ 52) : Reading s k (.finite s m e pos)
  | infinity (all : k = 2047 * 2 ^ 52) : Reading s k (.infinity s)
  | undefined : Reading s k .notANumber

section Fields

variable (b : BitVec 64)

theorem toNat_unpackMantissa : (@unpackMantissa .binary64 b).toNat = b.toNat % 2 ^ 52 := by
  rw [unpackMantissa_def, BitVec.extractLsb'_toNat]
  rfl

theorem toNat_unpackExponent : (@unpackExponent .binary64 b).toNat = b.toNat / 2 ^ 52 % 2 ^ 11 := by
  rw [unpackExponent_def, BitVec.extractLsb'_toNat, Nat.shiftRight_eq_div_pow]

theorem toNat_unpackSign : (@unpackSign .binary64 b).toNat = b.toNat / 2 ^ 63 % 2 := by
  rw [unpackSign_def, BitVec.extractLsb'_toNat, Nat.shiftRight_eq_div_pow]
  rfl

/-- The sign is the first bit. -/
theorem sign_of_bits : Sign.ofBitVec (@unpackSign .binary64 b) =
    if decide (signBit ≤ b.toNat) then .negative else .positive := by
  have hbit := toNat_unpackSign b
  have hlt := b.isLt
  unfold Sign.ofBitVec
  change _ = if decide (2 ^ 63 ≤ b.toNat) = true then _ else _
  by_cases hs : 2 ^ 63 ≤ b.toNat
  · rw [if_neg fun hzero => ?_, if_pos (decide_eq_true hs)]
    rw [hzero] at hbit
    change 0 = _ at hbit
    omega
  · rw [if_pos (BitVec.eq_of_toNat_eq (hbit.trans ?_)), if_neg (by simpa using hs)]
    rw [Nat.div_eq_of_lt (Nat.lt_of_not_le hs)]
    rfl

/-- What stands for what is read off the other bits: the largest exponent for no number, the smallest for few units,
and any other for units besides one that is not written. -/
theorem reading_unpack {s : Sign} (hs : Sign.ofBitVec (@unpackSign .binary64 b) = s) :
    Reading s (b.toNat % 2 ^ 63) (UnpackedFloat.unpack .binary64 b) := by
  have hk : b.toNat % 2 ^ 63 = (b.toNat / 2 ^ 52 % 2 ^ 11) * 2 ^ 52 + b.toNat % 2 ^ 52 := by omega
  have hall : b.toNat / 2 ^ 52 % 2 ^ 11 < 2 ^ 11 := Nat.mod_lt _ (by decide)
  have hrest : b.toNat % 2 ^ 52 < 2 ^ 52 := Nat.mod_lt _ (by decide)
  rw [← toNat_unpackMantissa, ← toNat_unpackExponent] at hk
  rw [← toNat_unpackMantissa] at hrest
  rw [← toNat_unpackExponent] at hall
  have hbias : ((Format.binary64.exponentBias : Nat) : Int) = 1023 := rfl
  unfold UnpackedFloat.unpack
  dsimp only
  rw [hs]
  split
  · rename_i hinf
    have htop : (@unpackExponent .binary64 b).toNat = 2047 := congrArg BitVec.toNat hinf
    split
    · rename_i hnone
      have hzero : (@unpackMantissa .binary64 b).toNat = 0 := congrArg BitVec.toNat hnone
      exact .infinity (by omega)
    · exact .undefined
  · rename_i hinf
    have hrange : (@unpackExponent .binary64 b).toNat ≠ 2047 := fun h => hinf (BitVec.eq_of_toNat_eq h)
    split
    · rename_i hsmall
      have hbottom : (@unpackExponent .binary64 b).toNat = 0 := congrArg BitVec.toNat hsmall
      split
      · rename_i hnone
        have hzero : (@unpackMantissa .binary64 b).toNat = 0 := congrArg BitVec.toNat hnone
        exact .zero (by omega)
      · exact .finite _ (by omega) (by omega) (.inl (by omega)) (by omega) (by omega)
    · rename_i hsmall
      have hnormal : (@unpackExponent .binary64 b).toNat ≠ 0 := fun h => hsmall (BitVec.eq_of_toNat_eq h)
      have hunit : (1#1 ++ @unpackMantissa .binary64 b).toNat = 2 ^ 52 + (@unpackMantissa .binary64 b).toNat := by
        rw [BitVec.toNat_append, ← Nat.shiftLeft_add_eq_or_of_lt hrest]
        rfl
      refine .finite _ ?_ ?_ (.inr ?_) ?_ ?_ <;> omega

end Fields

/-- **A double is read off its sign and its magnitude.** -/
theorem reading (x : Float) :
    Reading (if isSigned x then .negative else .positive) (magnitude x) x.toModel.unpack :=
  reading_unpack x.toBits.toBitVec (sign_of_bits _)

/-- Of two finite sizes the one with the larger exponent is larger, and of two with the same exponent that of more
units. -/
theorem lt_of_size {k l m n : Nat} {d e : Int} (hd : -1074 ≤ d) (hm : m < 2 ^ 53) (he : e = -1074 ∨ 2 ^ 52 ≤ n)
    (hk : (k : Int) = (d + 1074) * 2 ^ 52 + m) (hl : (l : Int) = (e + 1074) * 2 ^ 52 + n)
    (h : d < e ∨ d = e ∧ m < n) : k < l := by
  omega

/-- Numbers compare as their signs and magnitudes do. -/
theorem Reading.of_compare {s t : Sign} {k l : Nat} {a b : UnpackedFloat} (ha : Reading s k a) (hb : Reading t l b)
    (h : a.compare b = some .lt) : (s = .negative ∧ t = .positive) ∨ (s = .positive ∧ t = .positive ∧ k < l) ∨
      (s = .negative ∧ t = .negative ∧ l < k) := by
  cases ha with
  | zero hk =>
    cases hb with
    | zero => cases s <;> cases t <;> simp [UnpackedFloat.compare] at h
    | finite pos low high full size range =>
      cases s <;> cases t <;> simp [UnpackedFloat.compare] at h ⊢
      omega
    | infinity all =>
      cases s <;> cases t <;> simp [UnpackedFloat.compare] at h ⊢
      omega
    | undefined => cases h
  | finite pos low high full size range =>
    cases hb with
    | zero hl =>
      cases s <;> cases t <;> simp [UnpackedFloat.compare] at h ⊢
      omega
    | finite pos' low' high' full' size' range' =>
      cases s <;> cases t <;> simp [UnpackedFloat.compare] at h ⊢
      · rw [Ordering.then_eq_gt, Int.compare_eq_gt, Int.compare_eq_eq, Nat.compare_eq_gt] at h
        exact lt_of_size low' high' full size' size (h.imp_right (.imp_left Eq.symm))
      · rw [Ordering.then_eq_lt, Int.compare_eq_lt, Int.compare_eq_eq, Nat.compare_eq_lt] at h
        exact lt_of_size low high full' size size' h
    | infinity all =>
      cases s <;> cases t <;> simp [UnpackedFloat.compare] at h ⊢
      omega
    | undefined => cases h
  | infinity all =>
    cases hb with
    | zero hl =>
      cases s <;> cases t <;> simp [UnpackedFloat.compare] at h ⊢
      omega
    | finite pos low high full size range =>
      cases s <;> cases t <;> simp [UnpackedFloat.compare] at h ⊢
      omega
    | infinity all' =>
      cases s <;> cases t <;> simp [UnpackedFloat.compare] at h ⊢
    | undefined => cases s <;> cases h
  | undefined => cases h

/-- **A smaller number comes before a larger one.** -/
theorem below_of_lt (h : x < y) : Below x y := by
  have hlt : x.toModel.unpack.lt y.toModel.unpack = true := of_decide_eq_true h
  have hsigns := (reading x).of_compare (reading y) (eq_of_beq hlt)
  unfold Below
  cases hsx : isSigned x <;> cases hsy : isSigned y
  · simpa [hsx, hsy] using hsigns
  · simp [hsx, hsy] at hsigns
  · trivial
  · simpa [hsx, hsy] using hsigns

end HierPlan.Double
