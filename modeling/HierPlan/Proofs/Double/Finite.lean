import HierPlan.Proofs.Double.Rounding
import HierPlan.Proofs.Scale

/-!
# Proofs/Double/Finite — doubles are a lawful scale

    whole numbers of a word      at most 2^66
    shares of a unit             at most 2^4
    their sums                   at most 2^60: there a share is less than half a unit in the last place

The last line is why a sum of any length stays finite: once it is large, adding a share changes nothing
(`Double.absorb`).  **So every estimate but the infinite one is finite** (`Double.lawful`).
-/

namespace HierPlan.Double

open Float.Model Float.Model.UnpackedFloat

/-! ## Operations -/

/-- Numbers below half a unit in the last place are absorbed. -/
theorem absorb {r g x K : Nat} (hnear : 2 * (r * 2 ^ g) ≤ 2 * x + 2 ^ g) (hlow : 2 ^ (g + 52) ≤ x)
    (hhigh : x < 2 ^ (g + 53)) (hx : x ≤ 2 ^ K + 2 ^ (K - 56)) (hK : 56 ≤ K) : r * 2 ^ g ≤ 2 ^ K := by
  have hsmall : 2 ^ (K - 56) < 2 ^ K := Nat.pow_lt_pow_right (by decide) (by omega)
  have hg : g + 52 < K + 1 := by
    refine (Nat.pow_lt_pow_iff_right (by decide)).mp ((hlow.trans hx).trans_lt ?_)
    rw [Nat.pow_succ]
    omega
  have hbelow : 2 * x < 2 * 2 ^ K + 2 ^ g := by
    have hpos := Nat.two_pow_pos g
    by_cases hle : x ≤ 2 ^ K
    · omega
    · -- past `2 ^ K` the last place is worth more than what was added
      have hlast : K < g + 53 :=
        (Nat.pow_lt_pow_iff_right (by decide)).mp ((Nat.lt_of_not_le hle).trans hhigh)
      have hadded : 2 ^ (K - 56 + 1) < 2 ^ g := Nat.pow_lt_pow_right (by decide) (by omega)
      rw [Nat.pow_succ] at hadded
      omega
  have hsplit : 2 ^ K = 2 ^ (K - g) * 2 ^ g := by
    rw [← Nat.pow_add]
    exact congrArg (2 ^ ·) (by omega)
  have hr : r * 2 ^ g < (2 ^ (K - g) + 1) * 2 ^ g := by
    rw [Nat.add_mul, ← hsplit, Nat.one_mul]
    omega
  rw [hsplit]
  exact Nat.mul_le_mul_right _ (Nat.le_of_lt_succ (Nat.lt_of_mul_lt_mul_right hr))

theorem units_le {m a K : Nat} {e : Int} (hm : m ≤ 2 ^ a) (hK : a + (e + 2200).toNat ≤ K) :
    units m e ≤ 2 ^ K :=
  calc m * 2 ^ (e + 2200).toNat ≤ 2 ^ a * 2 ^ (e + 2200).toNat := Nat.mul_le_mul_right _ hm
    _ = 2 ^ (a + (e + 2200).toNat) := (Nat.pow_add ..).symm
    _ ≤ 2 ^ K := Nat.pow_le_pow_right (by decide) hK

/-- What becomes of a size when it is rounded: it keeps its highest bit and at most doubles. -/
structure Rounds (m : Nat) (e : Int) (m' : Nat) (e' : Int) : Prop where
  full : m'.log2 = 52
  low : 2 ^ (m.log2 + (e + 2200).toNat) ≤ units m' e'
  high : units m' e' ≤ 2 * units m e

/-- **Rounding a number with bits to spare**; an exact one that is little more than a power of two is
rounded to it. -/
theorem rounds_roundWithAccuracy {m : Nat} {e : Int} (acc : Accuracy) (pos : 0 < m) (hm : 52 ≤ m.log2)
    (he : -1022 ≤ m.log2 + e) (hfine : -2200 ≤ e) :
    ∃ m' e', ∃ pos' : 0 < m', roundWithAccuracy .binary64 .positive m e acc = .finite .positive m' e' pos' ∧
      Rounds m e m' e' ∧ (acc = .exact → ∀ K, 56 ≤ K → units m e ≤ 2 ^ K + 2 ^ (K - 56) →
        units m' e' ≤ 2 ^ K) := by
  obtain ⟨m', e', pos', heq, hlog, hsize⟩ := roundWithAccuracy_eq acc pos hm he hfine
  have hd : m.log2 = 52 + dropped m e := by
    rw [dropped, target_eq]
    omega
  obtain ⟨hlow, hhigh⟩ := (Nat.log2_eq_iff pos.ne').mp rfl
  refine ⟨m', e', pos', heq, ⟨hlog, ?_, ?_⟩, ?_⟩
  · rw [hsize, units, Nat.pow_add]
    refine Nat.mul_le_mul_right _ ?_
    conv_lhs => rw [hd]
    rw [Nat.pow_add]
    exact Nat.mul_le_mul_right _ (rounded_bounds acc pos hd).1
  · have hpow : 2 ^ dropped m e ≤ m := (Nat.pow_le_pow_right (by decide) (by omega)).trans hlow
    have hmul := rounded_mul_le m e acc
    rw [hsize, units, units, ← Nat.mul_assoc]
    exact Nat.mul_le_mul_right _ (by omega)
  · rintro rfl K hK hx
    obtain ⟨hxlow, hxhigh⟩ := units_bounds pos e
    have hnear := Nat.mul_le_mul_right (2 ^ (e + 2200).toNat) (rounded_exact_le m e)
    have hpow : 2 ^ dropped m e * 2 ^ (e + 2200).toNat = 2 ^ (dropped m e + (e + 2200).toNat) :=
      (Nat.pow_add ..).symm
    rw [hsize, units, Nat.mul_assoc, hpow]
    refine absorb ?_ ?_ ?_ hx hK
    · rw [← hpow, ← Nat.mul_assoc (rounded m e .exact), ← Nat.mul_assoc]
      refine hnear.trans_eq ?_
      rw [Nat.add_mul, Nat.mul_assoc]
      rfl
    · rwa [show dropped m e + (e + 2200).toNat + 52 = m.log2 + (e + 2200).toNat by omega]
    · rwa [show dropped m e + (e + 2200).toNat + 53 = m.log2 + 1 + (e + 2200).toNat by omega]

theorem log2_mul_two_pow {m : Nat} (pos : 0 < m) (n : Nat) : (m * 2 ^ n).log2 = m.log2 + n := by
  obtain ⟨hlow, hhigh⟩ := (Nat.log2_eq_iff pos.ne').mp rfl
  refine (Nat.log2_eq_iff (Nat.mul_pos pos (Nat.two_pow_pos n)).ne').mpr ⟨?_, ?_⟩
  · rw [Nat.pow_add]
    exact Nat.mul_le_mul_right _ hlow
  · rw [show m.log2 + n + 1 = m.log2 + 1 + n by omega, Nat.pow_add]
    exact Nat.mul_lt_mul_of_pos_right hhigh (Nat.two_pow_pos n)

theorem log2_mono {m n : Nat} (pos : 0 < m) (h : m ≤ n) : m.log2 ≤ n.log2 :=
  (Nat.le_log2 (pos.trans_le h).ne').mpr (((Nat.log2_eq_iff pos.ne').mp rfl).1.trans h)

/-- **Rounding an exact number.** -/
theorem rounds_round {m : Nat} {e : Int} (pos : 0 < m) (he : -1022 ≤ m.log2 + e) (hfine : -2100 ≤ e) :
    ∃ m' e', ∃ pos' : 0 < m', round .binary64 .positive m e = .finite .positive m' e' pos' ∧
      Rounds m e m' e' ∧
      ∀ K, 56 ≤ K → units m e ≤ 2 ^ K + 2 ^ (K - 56) → units m' e' ≤ 2 ^ K := by
  let a := (e - Format.binary64.targetExponent (totalExponent m e)).toNat
  have ha : a = 52 - m.log2 := by
    change (e - Format.binary64.targetExponent (totalExponent m e)).toNat = _
    rw [target_eq]
    omega
  have hshift : m <<< a = m * 2 ^ a := Nat.shiftLeft_eq ..
  have hpos : 0 < m <<< a := hshift ▸ Nat.mul_pos pos (Nat.two_pow_pos a)
  have hlog : (m <<< a).log2 = m.log2 + a := hshift ▸ log2_mul_two_pow pos a
  have hunits : units (m <<< a) (e - a) = units m e := by
    rw [hshift, ← units_add m (by omega) a, Int.sub_add_cancel]
  obtain ⟨m', e', pos', heq, ⟨hfull, hleast, hmost⟩, hnear⟩ := rounds_roundWithAccuracy (e := e - a)
    .exact hpos (by omega) (by omega) (by omega)
  rw [hunits] at hmost hnear
  refine ⟨m', e', pos', heq, ⟨hfull, ?_, hmost⟩, hnear rfl⟩
  rwa [show (m <<< a).log2 + (e - a + 2200).toNat = m.log2 + (e + 2200).toNat by omega] at hleast

/-! ## Doubles in range -/

/-- A positive double of at least `2 ^ L` and at most `2 ^ K` units, with a full mantissa. -/
def Between (L K : Nat) (x : Float) : Prop :=
  ∃ m e, ∃ pos : 0 < m, x.toModel.unpack = .finite .positive m e pos ∧ m.log2 = 52 ∧
    2 ^ L ≤ units m e ∧ units m e ≤ 2 ^ K

/-- Zero, or a positive double that is neither tiny nor huge. -/
def AtMost (K : Nat) (x : Float) : Prop :=
  (∃ s, x.toModel.unpack = .zero s) ∨ Between 2100 K x

theorem Between.mono {L L' K K' : Nat} {x : Float} (h : Between L K x) (hL : L' ≤ L) (hK : K ≤ K') :
    Between L' K' x := by
  obtain ⟨m, e, pos, hx, full, large, small⟩ := h
  exact ⟨m, e, pos, hx, full, (Nat.pow_le_pow_right (by decide) hL).trans large,
    small.trans (Nat.pow_le_pow_right (by decide) hK)⟩

/-- Doubles in range are finite. -/
theorem AtMost.isFinite {K : Nat} {x : Float} (h : AtMost K x) : x.isFinite = true := by
  change x.toModel.unpack.isFinite = true
  obtain ⟨s, hx⟩ | ⟨m, e, pos, hx, full, large, small⟩ := h
  · rw [hx]
    rfl
  · rw [hx]
    rfl

/-- A number in range is what it is packed into. -/
theorem between_pack {L K m : Nat} {e : Int} {pos : 0 < m} (full : m.log2 = 52)
    (large : 2 ^ L ≤ units m e) (small : units m e ≤ 2 ^ K) (hL : 2100 ≤ L) (hK : K ≤ 3200) :
    Between L K (.ofModel (.pack (.finite .positive m e pos))) :=
  ⟨m, e, pos, unpack_pack pos full ((pow_le_pow_right₀ (by decide) hL).trans large) small hK, full, large,
    small⟩

/-- What is rounded stays in range. -/
theorem Rounds.between {L K m m' : Nat} {e e' : Int} {pos : 0 < m'} (h : Rounds m e m' e')
    (large : L ≤ m.log2 + (e + 2200).toNat) (small : units m e ≤ 2 ^ K) (hL : 2100 ≤ L) (hK : K < 3200) :
    Between L (K + 1) (.ofModel (.pack (.finite .positive m' e' pos))) := by
  refine between_pack h.full ((Nat.pow_le_pow_right (by decide) large).trans h.low) ?_ hL hK
  rw [Nat.pow_succ]
  have hhigh := h.high
  omega

/-- The exponent of a number in range. -/
theorem exponent_bounds {L K m : Nat} {e : Int} (pos : 0 < m) (full : m.log2 = 52)
    (large : 2 ^ L ≤ units m e) (small : units m e ≤ 2 ^ K) (hL : 53 ≤ L) :
    (L : Int) ≤ e + 2252 ∧ e + 2252 ≤ K := by
  have hlow := lt_of_large pos large
  have hhigh := le_of_small pos small
  omega

/-! ## Whole numbers -/

theorem normalize_natCast {n : Nat} (pos : 0 < n) (e : Int) :
    UnpackedFloat.normalize .binary64 n e .positive = round .binary64 .positive n e := by
  have hcompare : compare (n : Int) 0 = .gt := Int.compare_eq_gt.mpr (by omega)
  rw [UnpackedFloat.normalize, hcompare]
  rfl

/-- The number of a word, before it is scaled. -/
theorem between_pack_ofNat {n : Nat} (pos : 0 < n) (hn : n ≤ 2 ^ 64) :
    Between 2200 2265 (.ofModel (.pack (UnpackedFloat.ofNat .binary64 n))) := by
  obtain ⟨m, e, pos', heq, hrounds, -⟩ := rounds_round (e := 0) pos (by omega) (by omega)
  rw [show UnpackedFloat.ofNat .binary64 n = _ from (normalize_natCast pos 0).trans heq]
  exact hrounds.between (by omega) (units_le hn (by decide)) (by decide) (by decide)

theorem unpack_one : (Float.ofBits 0x3FF0000000000000).toModel.unpack =
    .finite .positive (2 ^ 52) (-52) (by decide) := by
  with_unfolding_all rfl

/-- Small numbers are read as words. -/
theorem ofNat_of_lt {n : Nat} (h : n < 2 ^ 53) : Float.ofNat n =
    .ofModel (.pack (UnpackedFloat.ofNat .binary64 n)) * Float.ofBits 0x3FF0000000000000 := by
  have hword : n.toUInt64.toNat = n := by
    rw [Nat.toUInt64_eq, UInt64.toNat_ofNat_of_lt' (h.trans (by decide))]
  change Float.ofScientific n false 0 = _
  rw [Float.ofScientific, dif_pos ⟨h, by decide⟩]
  change Float.ofModel (.pack (UnpackedFloat.ofNat .binary64 n.toUInt64.toNat)) * _ = _
  rw [hword]
  rfl

/-- Large numbers are read as decimals. -/
theorem ofNat_of_le {n : Nat} (h : 2 ^ 53 ≤ n) : Float.ofNat n =
    .ofModel (.pack (roundWithAccuracy .binary64 .positive (n * 2 ^ 53) (-53) .exact)) := by
  have hzero : (0 : Int) ≤ (2 ^ Format.binary64.exponentBits : Int) := by decide
  change Float.ofScientific n false 0 = _
  rw [Float.ofScientific, dif_neg (fun hlt => absurd hlt.1 (by omega))]
  change Float.ofModel (.pack (UnpackedFloat.ofScientific .binary64 n 0)) = _
  rw [UnpackedFloat.ofScientific, dif_neg (by omega), if_neg (by decide), if_neg (by omega),
    if_pos (by decide)]
  change Float.ofModel (.pack (roundWithAccuracy .binary64 .positive (n <<< 53 * 1) (-53) .exact)) = _
  rw [Nat.shiftLeft_eq, Nat.mul_one]

/-- **A whole number of a word is in range.** -/
theorem between_ofNat {n : Nat} (pos : 0 < n) (hn : n ≤ 2 ^ 64) : Between 2200 2266 (Float.ofNat n) := by
  by_cases hsmall : n < 2 ^ 53
  · obtain ⟨m, e, pos', hx, full, large, small⟩ := between_pack_ofNat pos hn
    obtain ⟨hlow, hhigh⟩ := exponent_bounds pos' full large small (by decide)
    have hlog : (m * 2 ^ 52).log2 = 104 := by
      rw [log2_mul_two_pow pos', full]
    have hunits : units (m * 2 ^ 52) (e + -52) = units m e := by
      rw [← units_add m (by omega) 52]
      exact congrArg (units m) (by omega)
    obtain ⟨m', e', pos'', hmul, hrounds, -⟩ := rounds_roundWithAccuracy (e := e + -52) .exact
      (Nat.mul_pos pos' (Nat.two_pow_pos 52)) (by omega) (by omega) (by omega)
    rw [ofNat_of_lt hsmall]
    change Between _ _ (.ofModel (.pack (UnpackedFloat.mul .binary64
      (Float.Model.unpack (.pack (UnpackedFloat.ofNat .binary64 n)))
      (Float.ofBits 0x3FF0000000000000).toModel.unpack)))
    rw [unpack_one, hx]
    change Between _ _ (.ofModel (.pack
      (roundWithAccuracy .binary64 .positive (m * 2 ^ 52) (e + -52) .exact)))
    rw [hmul]
    exact hrounds.between (by omega) (hunits ▸ small) (by decide) (by decide)
  · have hlog := log2_mul_two_pow pos 53
    have hfull : 52 ≤ n.log2 := (Nat.le_log2 pos.ne').mpr (by omega)
    have hunits : units (n * 2 ^ 53) (-53) = units n 0 := (units_add n (by decide) 53).symm
    obtain ⟨m, e, pos', heq, hrounds, -⟩ := rounds_roundWithAccuracy (e := -53) .exact
      (Nat.mul_pos pos (Nat.two_pow_pos 53)) (by omega) (by omega) (by decide)
    rw [ofNat_of_le (by omega), heq]
    refine hrounds.between (by omega) ?_ (by decide) (by decide)
    rw [hunits]
    exact units_le (a := 64) hn (by decide)

/-! ## Shares -/

theorem unpack_ofNat_one : (Float.ofNat 1).toModel.unpack = .finite .positive (2 ^ 52) (-52) (by decide) := by
  with_unfolding_all rfl

theorem divCore_one {m : Nat} (full : m.log2 = 52) (e : Int) (he : e ≤ 900) :
    divCore .binary64 (2 ^ 52) (-52) m e =
      (2 ^ 105 / m, -105 - e, accuracyOfFraction (2 ^ 105 % m) m) := by
  have htarget : min (-52 - e) (Format.binary64.targetExponent
      (totalExponent (2 ^ 52) (-52) - totalExponent m e)) = -105 - e := by
    change min (-52 - e) (max ((((2 ^ 52 : Nat).log2 : Int) + 1 + -52 - ((m.log2 : Int) + 1 + e)) - 53)
      (-1074)) = _
    rw [full, Nat.log2_two_pow]
    omega
  have hshift : 2 ^ 52 <<< (-52 - e - (-105 - e)).toNat = 2 ^ 105 := by
    rw [show (-52 - e - (-105 - e)).toNat = 53 by omega]
    rfl
  unfold divCore
  dsimp only
  rw [htarget, hshift]

/-- **A share of a unit is in range.** -/
theorem between_share {k : Nat} (pos : 0 < k) (hk : k ≤ 2 ^ 64) :
    Between 2100 2201 (Float.ofNat 1 / Float.ofNat k) := by
  obtain ⟨m, e, pos', hx, full, large, small⟩ := between_ofNat pos hk
  obtain ⟨hlow, hhigh⟩ := exponent_bounds pos' full large small (by decide)
  obtain ⟨hbelow, habove⟩ := (Nat.log2_eq_iff pos'.ne').mp full
  have hleast : 2 ^ 52 ≤ 2 ^ 105 / m := by
    rw [Nat.le_div_iff_mul_le pos']
    omega
  have hmost : 2 ^ 105 / m ≤ 2 ^ 53 := by
    refine (Nat.div_le_div_left hbelow (by decide)).trans (by decide)
  have hposq : 0 < 2 ^ 105 / m := lt_of_lt_of_le (by decide) hleast
  have hlog : 52 ≤ (2 ^ 105 / m).log2 := (Nat.le_log2 hposq.ne').mpr hleast
  obtain ⟨m', e', pos'', heq, hrounds, -⟩ := rounds_roundWithAccuracy (e := -105 - e)
    (accuracyOfFraction (2 ^ 105 % m) m) hposq hlog (by omega) (by omega)
  change Between _ _ (.ofModel (.pack (UnpackedFloat.div .binary64 (Float.ofNat 1).toModel.unpack
    (Float.ofNat k).toModel.unpack)))
  rw [unpack_ofNat_one, hx]
  change Between _ _ (.ofModel (.pack (roundWithAccuracy .binary64 .positive
    (divCore .binary64 (2 ^ 52) (-52) m e).1 (divCore .binary64 (2 ^ 52) (-52) m e).2.1
    (divCore .binary64 (2 ^ 52) (-52) m e).2.2)))
  rw [divCore_one full e (by omega), heq]
  exact hrounds.between (by omega) (units_le hmost (by omega)) (by decide) (by decide)

/-! ## Sums -/

/-- Sizes are added. -/
theorem units_sum (m₁ m₂ : Nat) {e : Int} (he : -2200 ≤ e) (a b : Nat) :
    units (m₁ * 2 ^ a + m₂ * 2 ^ b) e = units m₁ (e + a) + units m₂ (e + b) := by
  rw [units_add m₁ he, units_add m₂ he]
  exact Nat.add_mul ..

/-- A small number added to one in range is absorbed before it leads out of range. -/
theorem between_add {K m₁ m₂ : Nat} {e₁ e₂ : Int} {pos₁ : 0 < m₁} {pos₂ : 0 < m₂} (full₁ : m₁.log2 = 52)
    (large₁ : 2 ^ 2100 ≤ units m₁ e₁) (small₁ : units m₁ e₁ ≤ 2 ^ K) (full₂ : m₂.log2 = 52)
    (large₂ : 2 ^ 2100 ≤ units m₂ e₂) (small₂ : units m₂ e₂ ≤ 2 ^ (K - 56)) (hK : 56 ≤ K)
    (hK' : K ≤ 3200) :
    Between 2100 K (.ofModel (.pack (UnpackedFloat.add .binary64 (.finite .positive m₁ e₁ pos₁)
      (.finite .positive m₂ e₂ pos₂)))) := by
  obtain ⟨hlow₁, -⟩ := exponent_bounds pos₁ full₁ large₁ small₁ (by decide)
  obtain ⟨hlow₂, -⟩ := exponent_bounds pos₂ full₂ large₂ small₂ (by decide)
  generalize he : min e₁ e₂ = e
  obtain ⟨a, rfl⟩ : ∃ a : Nat, e₁ = e + a := ⟨(e₁ - e).toNat, by omega⟩
  obtain ⟨b, rfl⟩ : ∃ b : Nat, e₂ = e + b := ⟨(e₂ - e).toNat, by omega⟩
  have hunits := units_sum m₁ m₂ (e := e) (by omega) a b
  have hpos : 0 < m₁ * 2 ^ a + m₂ * 2 ^ b := Nat.add_pos_left (Nat.mul_pos pos₁ (Nat.two_pow_pos a)) _
  have hlog : 52 + a ≤ (m₁ * 2 ^ a + m₂ * 2 ^ b).log2 := by
    rw [← full₁, ← log2_mul_two_pow pos₁]
    exact log2_mono (Nat.mul_pos pos₁ (Nat.two_pow_pos a)) (Nat.le_add_right _ _)
  obtain ⟨m', e', pos', heq, hrounds, hnear⟩ := rounds_round (e := e) hpos (by omega) (by omega)
  have hround : UnpackedFloat.add .binary64 (.finite .positive m₁ (e + a) pos₁)
      (.finite .positive m₂ (e + b) pos₂) = .finite .positive m' e' pos' := by
    change UnpackedFloat.normalize .binary64 ((m₁ <<< (e + a - min (e + a) (e + b)).toNat : Nat) +
      (m₂ <<< (e + b - min (e + a) (e + b)).toNat : Nat) : Int) (min (e + a) (e + b)) .positive = _
    rw [he, add_sub_cancel_left, add_sub_cancel_left, Int.toNat_natCast, Int.toNat_natCast,
      Nat.shiftLeft_eq, Nat.shiftLeft_eq, ← Int.natCast_add, normalize_natCast hpos, heq]
  rw [hround]
  refine between_pack hrounds.full ((pow_le_pow_right₀ (by decide) ?_).trans hrounds.low) ?_ le_rfl hK'
  · omega
  · exact hnear K hK (by omega)

/-- **A share added to a number in range leaves it in range.** -/
theorem AtMost.add {K : Nat} {x y : Float} (hx : AtMost K x) (hy : AtMost (K - 56) y) (hK : 56 ≤ K)
    (hK' : K ≤ 3200) : AtMost K (x + y) := by
  change AtMost K (.ofModel (.pack (UnpackedFloat.add .binary64 x.toModel.unpack y.toModel.unpack)))
  rcases hx with ⟨s, hx⟩ | ⟨m₁, e₁, pos₁, hx, full₁, large₁, small₁⟩ <;>
    rcases hy with ⟨t, hy⟩ | ⟨m₂, e₂, pos₂, hy, full₂, large₂, small₂⟩ <;> rw [hx, hy]
  · exact .inl (by cases s <;> cases t <;> exact ⟨_, rfl⟩)
  · refine .inr (between_pack full₂ large₂ (small₂.trans ?_) le_rfl hK')
    exact Nat.pow_le_pow_right (by decide) (by omega)
  · exact .inr (between_pack full₁ large₁ small₁ le_rfl hK')
  · exact .inr (between_add full₁ large₁ small₁ full₂ large₂ small₂ hK hK')

/-! ## The scale -/

/-- Shares are small. -/
theorem atMost_of_isShare {x : Float} (h : Scale.IsShare x) : AtMost 2204 x := by
  cases h with
  | nothing => exact .inl ⟨.positive, by with_unfolding_all rfl⟩
  | part pos word => exact .inr ((between_share pos word.le).mono le_rfl (by decide))

/-- **Sums of shares stay in range**, however many there are. -/
theorem atMost_sum {xs : List Float} (h : ∀ x ∈ xs, Scale.IsShare x) : AtMost 2260 (Scale.sum xs) := by
  have hfold : ∀ (xs : List Float) (b : Float), (∀ x ∈ xs, Scale.IsShare x) → AtMost 2260 b →
      AtMost 2260 (xs.foldl Scale.add b) := by
    intro xs
    induction xs with
    | nil => exact fun b _ hb => hb
    | cons x xs ih =>
      intro b hxs hb
      refine ih _ (fun y hy => hxs y (List.mem_cons_of_mem x hy)) ?_
      exact hb.add (atMost_of_isShare (hxs x List.mem_cons_self)) (by decide) (by decide)
  exact hfold xs _ h (.inl ⟨.negative, by with_unfolding_all rfl⟩)

/-- **Doubles are a lawful scale.** -/
instance lawful : Scale.Lawful Float where
  infinite := by decide +kernel
  finite_ofNat n hn := by
    rcases Nat.eq_zero_or_pos n with rfl | pos
    · with_unfolding_all rfl
    · exact AtMost.isFinite (.inr ((between_ofNat pos hn.le).mono (by decide) le_rfl))
  finite_sum _ h := (atMost_sum h).isFinite
  smaller_eq a b := by
    change (if b < a then b else a) = a ∨ (if b < a then b else a) = b
    split
    · exact .inr rfl
    · exact .inl rfl

end HierPlan.Double
