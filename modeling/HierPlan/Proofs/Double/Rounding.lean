import Mathlib.Algebra.Order.Ring.Nat
import Mathlib.Data.Nat.Bits
import Mathlib.Tactic.Ring

/-!
# Proofs/Double/Rounding — how far rounding can lead

    m · 2^e  ──drop n bits──▸  r · 2^(e + n)        r = m / 2^n, or one more if the first bit dropped is set

The size of a nonnegative double is counted in units far below the least double (`Double.units`), so that
sizes are natural numbers.  A rounded mantissa is at most one more than what is left of it
(`Double.rounded_mul_le`), and an exact one is rounded to the nearest (`Double.rounded_exact_le`).  **Packing
and unpacking make no double larger** (`Double.unpack_pack`).
-/

namespace HierPlan.Double

open Float.Model Float.Model.UnpackedFloat

/-! ## Dropping bits -/

theorem mantissa_shiftRight (em : ExtendedMantissa) (n : Nat) :
    (em >>> n).mantissa = em.mantissa / 2 ^ n := by
  induction n with
  | zero => rw [Nat.pow_zero, Nat.div_one]; rfl
  | succ n ih =>
    change (em >>> n).mantissa / 2 = _
    rw [ih, Nat.div_div_eq_div_mul, Nat.pow_succ]

/-- The first bit dropped is the round bit. -/
theorem roundBit_shiftRight_succ (em : ExtendedMantissa) (n : Nat) :
    (em >>> (n + 1)).roundBit = (em.mantissa / 2 ^ n % 2 != 0) := by
  change ((em >>> n).mantissa % 2 != 0) = _
  rw [mantissa_shiftRight]

/-- A mantissa is rounded up by one at most, and only if the round bit is set. -/
theorem roundedMantissa_le (em : ExtendedMantissa) :
    em.roundedMantissa ≤ em.mantissa + if em.roundBit then 1 else 0 := by
  obtain ⟨m, roundBit, stickyBit⟩ := em
  cases roundBit <;> cases stickyBit <;>
    simp [ExtendedMantissa.roundedMantissa, ExtendedMantissa.accuracy, Accuracy.roundToNearestEven]
  omega

theorem le_roundedMantissa (em : ExtendedMantissa) : em.mantissa ≤ em.roundedMantissa := by
  obtain ⟨m, roundBit, stickyBit⟩ := em
  cases roundBit <;> cases stickyBit <;>
    simp [ExtendedMantissa.roundedMantissa, ExtendedMantissa.accuracy, Accuracy.roundToNearestEven]

theorem mantissa_ofMantissaAndAccuracy (m : Nat) (acc : Accuracy) :
    (ExtendedMantissa.ofMantissaAndAccuracy m acc).mantissa = m := by
  rcases acc with _ | o
  · rfl
  · cases o <;> rfl

/-- How many bits a mantissa has too many. -/
def dropped (m : Nat) (e : Int) : Nat :=
  (Format.binary64.targetExponent (totalExponent m e) - e).toNat

/-- What is left of a mantissa when those bits are rounded off. -/
def rounded (m : Nat) (e : Int) (acc : Accuracy) : Nat :=
  (ExtendedMantissa.ofMantissaAndAccuracy m acc >>> dropped m e).roundedMantissa

theorem target_eq (m : Nat) (e : Int) : Format.binary64.targetExponent (totalExponent m e) =
    max ((m.log2 : Int) + 1 + e - 53) (-1074) := rfl

/-- **A rounded mantissa is at most one more than what is left of it.** -/
theorem rounded_mul_le (m : Nat) (e : Int) (acc : Accuracy) :
    rounded m e acc * 2 ^ dropped m e ≤ m + 2 ^ dropped m e := by
  have hle : rounded m e acc ≤ m / 2 ^ dropped m e + 1 := by
    refine (roundedMantissa_le _).trans ?_
    rw [mantissa_shiftRight, mantissa_ofMantissaAndAccuracy]
    split <;> omega
  calc rounded m e acc * 2 ^ dropped m e
      ≤ (m / 2 ^ dropped m e + 1) * 2 ^ dropped m e := Nat.mul_le_mul_right _ hle
    _ = m / 2 ^ dropped m e * 2 ^ dropped m e + 2 ^ dropped m e := by rw [Nat.add_mul, Nat.one_mul]
    _ ≤ m + 2 ^ dropped m e := Nat.add_le_add_right (Nat.div_mul_le_self _ _) _

/-- **An exact mantissa is rounded to the nearest.** -/
theorem rounded_exact_le (m : Nat) (e : Int) :
    2 * (rounded m e .exact * 2 ^ dropped m e) ≤ 2 * m + 2 ^ dropped m e := by
  unfold rounded
  generalize dropped m e = n
  cases n with
  | zero =>
    change 2 * (m * 2 ^ 0) ≤ _
    omega
  | succ n =>
    have hle := roundedMantissa_le (ExtendedMantissa.ofMantissaAndAccuracy m .exact >>> (n + 1))
    rw [roundBit_shiftRight_succ, mantissa_shiftRight, mantissa_ofMantissaAndAccuracy] at hle
    have hq : m / 2 ^ (n + 1) = m / 2 ^ n / 2 := by rw [Nat.div_div_eq_div_mul, Nat.pow_succ]
    have hm : m / 2 ^ n * 2 ^ n ≤ m := Nat.div_mul_le_self m (2 ^ n)
    generalize (ExtendedMantissa.ofMantissaAndAccuracy m .exact >>> (n + 1)).roundedMantissa = r at hle ⊢
    rw [hq] at hle
    generalize m / 2 ^ n = q at hle hm
    have hr : r * 2 ≤ q + 1 := by
      split at hle
      · rename_i hodd
        rw [bne_iff_ne] at hodd
        omega
      · omega
    calc 2 * (r * 2 ^ (n + 1)) = 2 * (r * 2 * 2 ^ n) := by rw [Nat.pow_succ]; ring
      _ ≤ 2 * ((q + 1) * 2 ^ n) := Nat.mul_le_mul_left 2 (Nat.mul_le_mul_right _ hr)
      _ = 2 * (q * 2 ^ n) + 2 ^ (n + 1) := by rw [Nat.pow_succ]; ring
      _ ≤ 2 * m + 2 ^ (n + 1) := by omega

/-! ## Sizes -/

/-- The size of a mantissa with an exponent, counted in units of `2 ^ (-2200)`. -/
def units (m : Nat) (e : Int) : Nat := m * 2 ^ (e + 2200).toNat

/-- A shift of the exponent is a power of two. -/
theorem units_add (m : Nat) {e : Int} (he : -2200 ≤ e) (n : Nat) :
    units m (e + n) = units (m * 2 ^ n) e := by
  have hsum : (e + n + 2200).toNat = n + (e + 2200).toNat := by omega
  rw [units, units, hsum, Nat.pow_add, Nat.mul_assoc]

/-- The size of a mantissa with an exponent lies between two powers of two. -/
theorem units_bounds {m : Nat} (pos : 0 < m) (e : Int) :
    2 ^ (m.log2 + (e + 2200).toNat) ≤ units m e ∧ units m e < 2 ^ (m.log2 + 1 + (e + 2200).toNat) := by
  obtain ⟨hlow, hhigh⟩ := (Nat.log2_eq_iff pos.ne').mp rfl
  rw [Nat.pow_add, Nat.pow_add]
  exact ⟨Nat.mul_le_mul_right _ hlow, Nat.mul_lt_mul_of_pos_right hhigh (Nat.two_pow_pos _)⟩

/-- What is not too small has no small exponent. -/
theorem lt_of_large {m : Nat} {e : Int} {L : Nat} (pos : 0 < m) (h : 2 ^ L ≤ units m e) :
    L < m.log2 + 1 + (e + 2200).toNat :=
  (Nat.pow_lt_pow_iff_right (by decide)).mp (h.trans_lt (units_bounds pos e).2)

/-- What is not too large has no large exponent. -/
theorem le_of_small {m : Nat} {e : Int} {K : Nat} (pos : 0 < m) (h : units m e ≤ 2 ^ K) :
    m.log2 + (e + 2200).toNat ≤ K :=
  (Nat.pow_le_pow_iff_right (by decide)).mp ((units_bounds pos e).1.trans h)

/-! ## Rounding -/

theorem finite_congr {m m' : Nat} {e e' : Int} {pos : 0 < m} {pos' : 0 < m'} {s s' : Sign} (hs : s = s')
    (hm : m = m') (he : e = e') : UnpackedFloat.finite s m e pos = .finite s' m' e' pos' := by
  subst hs hm he
  rfl

/-- A mantissa that is rounded off to 53 bits keeps its highest bit. -/
theorem rounded_bounds {m : Nat} {e : Int} (acc : Accuracy) (pos : 0 < m)
    (hd : m.log2 = 52 + dropped m e) :
    2 ^ 52 ≤ rounded m e acc ∧ rounded m e acc ≤ 2 ^ 53 := by
  obtain ⟨hlow, hhigh⟩ := (Nat.log2_eq_iff pos.ne').mp rfl
  rw [hd] at hlow hhigh
  constructor
  · refine le_trans ?_ (le_roundedMantissa _)
    rw [mantissa_shiftRight, mantissa_ofMantissaAndAccuracy, Nat.le_div_iff_mul_le (Nat.two_pow_pos _),
      ← Nat.pow_add]
    exact hlow
  · have hleft : m / 2 ^ dropped m e < 2 ^ 53 := by
      rw [Nat.div_lt_iff_lt_mul (Nat.two_pow_pos _), ← Nat.pow_add]
      exact hhigh.trans_eq (congrArg (2 ^ ·) (by omega))
    have hle := roundedMantissa_le (ExtendedMantissa.ofMantissaAndAccuracy m acc >>> dropped m e)
    rw [mantissa_shiftRight, mantissa_ofMantissaAndAccuracy] at hle
    unfold rounded
    split at hle <;> omega

/-- **Rounding to a full mantissa**: the size is that of what is left. -/
theorem roundWithAccuracy_eq {m : Nat} {e : Int} (acc : Accuracy) (pos : 0 < m)
    (hm : 52 ≤ m.log2) (he : -1022 ≤ m.log2 + e) (hfine : -2200 ≤ e) :
    ∃ m' e', ∃ pos' : 0 < m', roundWithAccuracy .binary64 .positive m e acc = .finite .positive m' e' pos' ∧
      m'.log2 = 52 ∧ units m' e' = units (rounded m e acc * 2 ^ dropped m e) e := by
  have hd : m.log2 = 52 + dropped m e := by
    rw [dropped, target_eq]
    omega
  obtain ⟨hlow, hhigh⟩ := rounded_bounds acc pos hd
  -- a mantissa rounded up to 54 bits is a power of two, and gives one bit back
  have hcarry : dropped (rounded m e acc) (e + dropped m e) =
      if rounded m e acc = 2 ^ 53 then 1 else 0 := by
    rw [dropped, target_eq]
    split
    · rename_i htop
      rw [htop, Nat.log2_two_pow]
      omega
    · rename_i htop
      have hlog : (rounded m e acc).log2 = 52 :=
        (Nat.log2_eq_iff (by omega)).mpr ⟨hlow, by omega⟩
      rw [hlog]
      omega
  have hround : ∀ m' : Nat, ∀ e' : Int, (pos' : 0 < m') →
      m' = rounded m e acc / 2 ^ dropped (rounded m e acc) (e + dropped m e) →
      e' = e + dropped m e + dropped (rounded m e acc) (e + dropped m e) →
      roundWithAccuracy .binary64 .positive m e acc = .finite .positive m' e' pos' := by
    rintro m' e' pos' rfl rfl
    have hne : (ExtendedMantissa.ofMantissaAndAccuracy (rounded m e acc) .exact >>>
        dropped (rounded m e acc) (e + dropped m e)).mantissa ≠ 0 := by
      rw [mantissa_shiftRight]
      exact pos'.ne'
    unfold roundWithAccuracy
    change (if h : (ExtendedMantissa.ofMantissaAndAccuracy (rounded m e acc) .exact >>>
      dropped (rounded m e acc) (e + dropped m e)).mantissa = 0 then _ else _) = _
    rw [dif_neg hne]
    exact finite_congr rfl (mantissa_shiftRight _ _) rfl
  rw [hcarry] at hround
  by_cases htop : rounded m e acc = 2 ^ 53
  · rw [if_pos htop, htop] at hround
    refine ⟨2 ^ 52, e + dropped m e + (1 : Nat), by decide, hround _ _ _ rfl rfl, rfl, ?_⟩
    rw [units_add _ (by omega), units_add _ hfine, htop]
    rfl
  · rw [if_neg htop] at hround
    refine ⟨rounded m e acc, e + dropped m e, by omega, hround _ _ _ (Nat.div_one _).symm (by simp), ?_, ?_⟩
    · exact (Nat.log2_eq_iff (by omega)).mpr ⟨hlow, by omega⟩
    · exact units_add _ hfine _

/-! ## Packing -/

theorem ofBitVec_unpackSign (s : Sign) (e : BitVec Format.binary64.exponentBits)
    (m : BitVec Format.binary64.mantissaBitsWithoutImplicit) :
    Sign.ofBitVec (unpackSign (packComponents .binary64 s e m)) = s := by
  unfold unpackSign packComponents
  rw [BitVec.extractLsb, BitVec.extractLsb'_append_eq_of_le (by decide),
    BitVec.extractLsb'_append_eq_of_le (by decide)]
  cases s <;> rfl

/-- **A full mantissa that is neither tiny nor huge is packed without loss.** -/
theorem unpack_pack {K m : Nat} {e : Int} (pos : 0 < m) (full : m.log2 = 52) (large : 2 ^ 2100 ≤ units m e)
    (small : units m e ≤ 2 ^ K) (hK : K ≤ 3200) :
    UnpackedFloat.unpack .binary64 (UnpackedFloat.pack .binary64 (.finite .positive m e pos)) =
      .finite .positive m e pos := by
  have hlow := lt_of_large pos large
  have hhigh := le_of_small pos small
  rw [full] at hlow hhigh
  have hbiased : (e + (1023 : Nat) + (52 : Nat)).toNat = (e + 1075).toNat := by omega
  have hmod : (BitVec.ofNat 11 (e + 1075).toNat).toNat = (e + 1075).toNat :=
    Nat.mod_eq_of_lt (by omega)
  have hpack : UnpackedFloat.pack .binary64 (.finite .positive m e pos) =
      packComponents .binary64 .positive (BitVec.ofNat 11 (e + 1075).toNat) (BitVec.ofNat 52 m) := by
    unfold UnpackedFloat.pack
    dsimp only
    rw [show Format.binary64.exponentBias = 1023 from rfl, hbiased, if_neg (by omega),
      if_pos (by rw [full]; rfl)]
  rw [hpack]
  unfold UnpackedFloat.unpack
  dsimp only
  rw [ofBitVec_unpackSign]
  -- the biased exponent lies strictly between those of infinity and of zero
  rw [if_neg fun hinf => ?_, if_neg fun hzero => ?_]
  · refine finite_congr rfl ?_ ?_
    · obtain ⟨hbelow, habove⟩ := (Nat.log2_eq_iff pos.ne').mp full
      have hrest : m % 2 ^ 52 < 2 ^ 52 := Nat.mod_lt _ (by decide)
      rw [unpackMantissa_packComponents]
      change (1#1 ++ BitVec.ofNat 52 m).toNat = m
      rw [BitVec.toNat_append, BitVec.toNat_ofNat, BitVec.toNat_ofNat,
        ← Nat.shiftLeft_add_eq_or_of_lt hrest]
      omega
    · rw [unpackExponent_packComponents]
      change ((BitVec.ofNat 11 (e + 1075).toNat).toNat : Int) - (1023 + 52) = e
      rw [hmod]
      omega
  · rw [unpackExponent_packComponents] at hzero
    have hnat := hmod.symm.trans (congrArg BitVec.toNat hzero)
    change (e + 1075).toNat = 0 at hnat
    omega
  · rw [unpackExponent_packComponents] at hinf
    have hnat := hmod.symm.trans (congrArg BitVec.toNat hinf)
    change (e + 1075).toNat = 2047 at hnat
    omega

end HierPlan.Double
