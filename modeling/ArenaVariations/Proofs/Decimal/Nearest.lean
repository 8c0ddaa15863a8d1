import ArenaVariations.Proofs.Decimal.Double

/-!
# The nearest double

`Decimal.toFloat` is the double that covers a decimal. Lean computes it in two ways. If digits and
power of ten are doubles themselves, it multiplies or divides these; otherwise the model does so
with exact numbers. The guards against huge powers of ten refuse no decimal that a finite positive
double covers.
-/

namespace ArenaVariations

open Float.Model Float.Model.UnpackedFloat

theorem unpackSign_packComponents (s : Sign) (e : BitVec 11) (m : BitVec 52) :
    @unpackSign .binary64 (packComponents .binary64 s e m) = s.toBitVec := by
  apply BitVec.eq_of_toNat_eq
  rw [toNat_unpackSign, toNat_packComponents]
  have : e.toNat < 2 ^ 11 := e.isLt
  have : m.toNat < 2 ^ 52 := m.isLt
  omega

theorem ofBitVec_toBitVec (s : Sign) : Sign.ofBitVec s.toBitVec = s := by
  cases s <;> rfl

namespace Binary

variable {x : Binary}

/-- Packing a double and unpacking it again gives it back. -/
theorem Proper.unpack_pack (proper : x.Proper) (s : Sign) :
    (Float.Model.pack (.finite s x.mantissa x.exponent proper.positive)).unpack =
      .finite s x.mantissa x.exponent proper.positive := by
  have least := proper.least
  have greatest := proper.greatest
  have bounded := proper.bounded
  rw [Float.Model.unpack, unpack_eq_ofParts]
  simp only [Float.Model.pack, UInt64.toBitVec_ofBitVec]
  rw [pack_finite, if_neg (by omega), unpackSign_packComponents, unpackExponent_packComponents,
    unpackMantissa_packComponents, ofBitVec_toBitVec, ofParts]
  rcases Nat.lt_or_ge x.mantissa (2 ^ 52) with subnormal | normal
  · have bits : x.mantissa.log2 < 52 := (Nat.log2_lt proper.positive.ne').mpr subnormal
    have same : (BitVec.ofNat 52 x.mantissa).toNat = x.mantissa := Nat.mod_eq_of_lt subnormal
    have nonzero : BitVec.ofNat 52 x.mantissa ≠ 0#52 := fun eq => by
      have zero := congrArg BitVec.toNat eq
      rw [same] at zero
      exact proper.positive.ne' zero
    rw [if_neg bits.ne, if_neg (by decide), if_pos rfl, dif_neg nonzero]
    simp only [same, proper.normal.resolve_left (by omega)]
  · have bits : x.mantissa.log2 = 52 :=
      (Nat.log2_eq_iff proper.positive.ne').mpr ⟨normal, bounded⟩
    have exponent : (BitVec.ofNat 11 (x.exponent + 1075).toNat).toNat = (x.exponent + 1075).toNat :=
      Nat.mod_eq_of_lt (by omega)
    have mantissa : (BitVec.ofNat 52 x.mantissa).toNat = x.mantissa - 2 ^ 52 := by
      rw [BitVec.toNat_ofNat]
      omega
    have finite : BitVec.ofNat 11 (x.exponent + 1075).toNat ≠ -1#11 := fun eq => by
      have top := congrArg BitVec.toNat eq
      rw [exponent] at top
      have : (-1#11).toNat = 2047 := rfl
      omega
    have not_least : BitVec.ofNat 11 (x.exponent + 1075).toNat ≠ 0#11 := fun eq => by
      have zero := congrArg BitVec.toNat eq
      rw [exponent] at zero
      have : (0#11).toNat = 0 := rfl
      omega
    rw [if_pos bits, if_neg finite, if_neg not_least]
    simp only [exponent, mantissa, UnpackedFloat.finite.injEq, true_and]
    omega

/-- A double covers its own value. -/
theorem covers_value (x : Binary) : x.Covers x.value := by
  refine covers_mul_two_zpow.mpr ⟨.inl ?_, .inl ?_⟩
  · split <;> linarith
  · linarith

/-- A natural number of at most 53 bits. -/
def ofNat (n : Nat) : Binary :=
  ⟨n * 2 ^ (52 - n.log2), n.log2 - 52, n * 2 ^ (52 - n.log2) = 2 ^ 52⟩

variable {n : Nat}

theorem two_pow_le_ofNat (positive : 0 < n) (small : n < 2 ^ 53) :
    2 ^ 52 ≤ (ofNat n).mantissa := by
  have bits : n.log2 < 53 := (Nat.log2_lt positive.ne').mpr small
  calc 2 ^ 52 = 2 ^ n.log2 * 2 ^ (52 - n.log2) := by
        rw [← Nat.pow_add]
        congr 1
        omega
    _ ≤ n * 2 ^ (52 - n.log2) := Nat.mul_le_mul_right _ (Nat.log2_self_le positive.ne')

theorem proper_ofNat (positive : 0 < n) (small : n < 2 ^ 53) : (ofNat n).Proper := by
  have bits : n.log2 < 53 := (Nat.log2_lt positive.ne').mpr small
  have normal := two_pow_le_ofNat positive small
  have bounded : (ofNat n).mantissa < 2 ^ 53 := by
    calc n * 2 ^ (52 - n.log2) < 2 ^ (n.log2 + 1) * 2 ^ (52 - n.log2) :=
          Nat.mul_lt_mul_of_pos_right Nat.lt_log2_self (Nat.two_pow_pos _)
      _ = 2 ^ 53 := by
        rw [← Nat.pow_add]
        congr 1
        omega
  exact ⟨by omega, bounded, .inl normal, by dsimp only [ofNat]; omega, by dsimp only [ofNat]; omega,
    by simp only [ofNat, decide_eq_true_eq]; omega⟩

theorem value_ofNat (positive : 0 < n) (small : n < 2 ^ 53) : (ofNat n).value = n := by
  have bits : n.log2 < 53 := (Nat.log2_lt positive.ne').mpr small
  have cancel : (2 : ℚ) ^ (52 - n.log2) * 2 ^ (n.log2 - 52 : ℤ) = 1 := by
    rw [← zpow_natCast, ← zpow_add₀ (by norm_num)]
    rw [show ((52 - n.log2 : ℕ) : ℤ) + (n.log2 - 52) = 0 by omega, zpow_zero]
  rw [value, ofNat]
  push_cast
  rw [mul_assoc, cancel, mul_one]

/-- A natural number of at most 53 bits is a double. -/
theorem toModel_toFloat (positive : 0 < n) (small : n < 2 ^ 53) :
    n.toUInt64.toFloat.toModel = .pack (.finite .positive (ofNat n).mantissa (ofNat n).exponent
      (proper_ofNat positive small).positive) := by
  have proper := proper_ofNat positive small
  have bits : n.log2 < 53 := (Nat.log2_lt positive.ne').mpr small
  have word : n.toUInt64.toNat = n := Nat.mod_eq_of_lt (small.trans (by norm_num))
  change Float.Model.pack (normalize .binary64 (n.toUInt64.toNat : Int) 0 .positive) = _
  have above : compare (n : Int) 0 = .gt := by
    rw [Int.compare_eq_gt]
    exact_mod_cast positive
  have shift : (0 - max (n.log2 + 0 - 52 : Int) (-1074)).toNat = 52 - n.log2 := by omega
  have exponent : (0 - (52 - n.log2 : Nat) : Int) = n.log2 - 52 := by omega
  rw [word, UnpackedFloat.normalize, above]
  simp only [Int.toNat_natCast, UnpackedFloat.round, decreaseExponent, targetExponent_eq, shift,
    exponent, Nat.shiftLeft_eq]
  have covered : (ofNat n).Covers
      ((n * 2 ^ (52 - n.log2) : Nat) / (1 : Nat) * 2 ^ (n.log2 - 52 : Int)) := by
    rw [Nat.cast_one, div_one]
    exact covers_value (ofNat n)
  have low : (n.log2 - 52 : Int) ≤ Format.binary64.targetExponent
      (totalExponent (n * 2 ^ (52 - n.log2) / 1) (n.log2 - 52)) := by
    rw [Nat.div_one]
    exact proper.targetExponent.ge
  have rounded := covered.roundWithAccuracy proper Nat.one_pos low .positive
  rw [Nat.div_one, Nat.mod_one] at rounded
  exact congrArg Float.Model.pack rounded

/-- The powers of ten up to the twenty-second are doubles. -/
theorem powersOfTen_checked : ∀ k : Fin Float.exactlyRepresentablePowersOfTen.size,
    let power := Float.exactlyRepresentablePowersOfTen[k.val]
    power.isNaN = false ∧ power.isInf = false ∧ power.toBits >>> 63 ≠ 1 ∧
      2 ^ 52 ≤ (ofFloat power).mantissa ∧
      (ofFloat power).mantissa * 2 ^ (ofFloat power).exponent.toNat =
        10 ^ k.val * 2 ^ (-(ofFloat power).exponent).toNat := by
  decide +kernel

theorem exists_powerOfTen {k : Nat} (inside : k < Float.exactlyRepresentablePowersOfTen.size) :
    ∃ (y : Binary) (proper : y.Proper), 2 ^ 52 ≤ y.mantissa ∧ y.value = 10 ^ k ∧
      Float.exactlyRepresentablePowersOfTen[k].toModel.unpack =
        .finite .positive y.mantissa y.exponent proper.positive := by
  obtain ⟨real, bounded, positive, normal, value⟩ := powersOfTen_checked ⟨k, inside⟩
  dsimp only at real bounded positive normal value
  generalize Float.exactlyRepresentablePowersOfTen[k] = power at *
  obtain ⟨proper, packed⟩ := toModel_eq_pack_finite real bounded (by omega)
  refine ⟨ofFloat power, proper, normal, ?_, ?_⟩
  · have cleared : ((ofFloat power).mantissa * 2 ^ (ofFloat power).exponent.toNat : ℚ) =
        10 ^ k * 2 ^ (-(ofFloat power).exponent).toNat := by exact_mod_cast value
    have split : (2 : ℚ) ^ (ofFloat power).exponent * 2 ^ (-(ofFloat power).exponent).toNat =
        2 ^ (ofFloat power).exponent.toNat := by
      rw [← zpow_natCast, ← zpow_natCast, ← zpow_add₀ (by norm_num)]
      congr 1
      omega
    have nonzero : (2 : ℚ) ^ (-(ofFloat power).exponent).toNat ≠ 0 := by positivity
    rw [Binary.value, ← mul_left_inj' nonzero, mul_assoc, split, cleared]
  · rw [packed, signOf, if_neg positive, proper.unpack_pack]

/-- An exponent is given as its sign and its size. -/
theorem signed_natAbs (e : Int) :
    (if decide (e < 0) then Int.negOfNat e.natAbs else Int.ofNat e.natAbs) = e := by
  split
  case isTrue negative =>
    have := of_decide_eq_true negative
    rw [Int.negOfNat_eq, Int.ofNat_eq_natCast]
    omega
  case isFalse whole =>
    simp at whole
    simp only [Int.ofNat_eq_natCast]
    omega

theorem mul_ten_zpow_of_neg (m : ℚ) {e : Int} (negative : e < 0) :
    m * 10 ^ e = m / 10 ^ e.natAbs := by
  have : e = -(e.natAbs : Int) := by omega
  rw [this, zpow_neg, zpow_natCast, div_eq_mul_inv, Int.natAbs_neg, Int.natAbs_natCast]

theorem mul_ten_zpow_of_nonneg (m : ℚ) {e : Int} (whole : 0 ≤ e) :
    m * 10 ^ e = m * 10 ^ e.natAbs := by
  have : e = (e.natAbs : Int) := by omega
  rw [this, zpow_natCast, Int.natAbs_natCast]

/-- Reading a decimal gives the double that covers it, whichever way it is computed. -/
theorem Covers.toModel_ofScientific (proper : x.Proper) {m : Nat} {e : Int} (positive : 0 < m)
    (covered : x.Covers (m * 10 ^ e)) (large : e ≤ 2048) (small : -(2048 + m.log2 : Int) ≤ e) :
    (Float.ofScientific m (e < 0) e.natAbs).toModel =
      .pack (.finite .positive x.mantissa x.exponent proper.positive) := by
  rw [Float.ofScientific]
  split
  case isTrue fast =>
    have inside : e.natAbs < Float.exactlyRepresentablePowersOfTen.size :=
      Nat.lt_succ_of_le fast.2
    obtain ⟨y, power, normal, value, unpacked⟩ := exists_powerOfTen inside
    have exact := toModel_toFloat positive fast.1
    dsimp only
    generalize Float.exactlyRepresentablePowersOfTen[e.natAbs] = ten at *
    have number := (proper_ofNat positive fast.1).unpack_pack .positive
    rw [← exact] at number
    have first : ((ofNat m).mantissa * 2 ^ (ofNat m).exponent : ℚ) = m :=
      value_ofNat positive fast.1
    have second : (y.mantissa * 2 ^ y.exponent : ℚ) = 10 ^ e.natAbs := value
    split
    case isTrue negative =>
      change Float.Model.pack (UnpackedFloat.div .binary64 m.toUInt64.toFloat.toModel.unpack
        ten.toModel.unpack) = _
      rw [number, unpacked]
      rw [mul_ten_zpow_of_neg _ (of_decide_eq_true negative), ← second, ← first] at covered
      exact congrArg Float.Model.pack (covered.div proper _ power.positive .positive .positive)
    case isFalse whole =>
      change Float.Model.pack (UnpackedFloat.mul .binary64 m.toUInt64.toFloat.toModel.unpack
        ten.toModel.unpack) = _
      rw [number, unpacked]
      rw [mul_ten_zpow_of_nonneg _ (by simpa using whole), ← second, ← first] at covered
      have enough : 2 ^ 52 ≤ (ofNat m).mantissa * y.mantissa :=
        (two_pow_le_ofNat positive fast.1).trans (Nat.le_mul_of_pos_right _ power.positive)
      exact congrArg Float.Model.pack
        (covered.mul proper _ power.positive enough .positive .positive)
  case isFalse =>
    dsimp only
    rw [signed_natAbs]
    exact congrArg Float.Model.pack (covered.ofScientific proper positive large small)

end Binary

namespace Decimal

/-- The number that a decimal is. -/
def value (d : Decimal) : ℚ :=
  d.digits * 10 ^ d.exponent

theorem length_le_iff {n k : Nat} (positive : 0 < k) : length n ≤ k ↔ n < 10 ^ k :=
  Nat.length_toDigits_le_iff (by decide) positive

theorem lt_ten_pow_length (n : Nat) : n < 10 ^ length n :=
  (length_le_iff Nat.length_toDigits_pos).mp le_rfl

theorem ten_pow_le {n : Nat} (positive : 0 < n) : 10 ^ (length n - 1) ≤ n := by
  rcases Nat.eq_zero_or_pos (length n - 1) with zero | more
  · rwa [zero]
  · by_contra small
    have := (length_le_iff more).mpr (Nat.lt_of_not_le small)
    omega

theorem length_le_log2 {n : Nat} (positive : 0 < n) : length n ≤ n.log2 + 1 := by
  have small : 2 ^ (length n - 1) ≤ n :=
    (Nat.pow_le_pow_left (by decide) _).trans (ten_pow_le positive)
  have := (Nat.le_log2 positive.ne').mpr small
  omega

theorem ten_zpow_mono {a b : Int} (h : a ≤ b) : (10 : ℚ) ^ a ≤ 10 ^ b :=
  zpow_le_zpow_right₀ (by norm_num) h

variable {d : Decimal}

theorem value_lt (d : Decimal) : d.value < 10 ^ d.point := by
  have power : (0 : ℚ) < 10 ^ d.exponent := zpow_pos (by norm_num) _
  have small : (d.digits : ℚ) < 10 ^ length d.digits := by
    exact_mod_cast lt_ten_pow_length d.digits
  rw [value, point, zpow_add₀ (by norm_num), zpow_natCast]
  exact mul_lt_mul_of_pos_right small power

theorem le_value (positive : 0 < d.digits) : (10 : ℚ) ^ (d.point - 1) ≤ d.value := by
  have power : (0 : ℚ) < 10 ^ d.exponent := zpow_pos (by norm_num) _
  have some_digit : 0 < length d.digits := Nat.length_toDigits_pos
  have large : (10 : ℚ) ^ (length d.digits - 1) ≤ d.digits := by
    exact_mod_cast ten_pow_le positive
  have split : d.point - 1 = (length d.digits - 1 : Nat) + d.exponent := by
    rw [point]
    omega
  rw [value, split, zpow_add₀ (by norm_num), zpow_natCast]
  exact mul_le_mul_of_nonneg_right large power.le

end Decimal

namespace Binary

variable {x : Binary} {d : Decimal}

theorem Proper.lower_ge (proper : x.Proper) : (2 : ℚ) ^ (-1075 : ℤ) ≤ x.lower := by
  have positive : (1 : ℚ) ≤ x.mantissa := by exact_mod_cast proper.positive
  have unit : (2 : ℚ) ^ (-1076 : ℤ) ≤ 2 ^ (x.exponent - 2) :=
    two_zpow_mono (by have := proper.least; omega)
  calc (2 : ℚ) ^ (-1075 : ℤ) = 2 * 2 ^ (-1076 : ℤ) := by
        rw [← zpow_one_add₀ (by norm_num)]
        norm_num
    _ ≤ (4 * x.mantissa - if x.narrowBelow then 1 else 2) * 2 ^ (x.exponent - 2) := by
        refine mul_le_mul ?_ unit (two_zpow_pos _).le ?_ <;> split <;> linarith

theorem Proper.upper_le (proper : x.Proper) : x.upper ≤ 2 ^ (1024 : ℤ) := by
  have bounded : (x.mantissa : ℚ) + 1 ≤ 2 ^ 53 := by exact_mod_cast proper.bounded
  have unit : (2 : ℚ) ^ (x.exponent - 2) ≤ 2 ^ (969 : ℤ) :=
    two_zpow_mono (by have := proper.greatest; omega)
  calc (4 * x.mantissa + 2 : ℚ) * 2 ^ (x.exponent - 2)
      ≤ 2 ^ (55 : ℤ) * 2 ^ (969 : ℤ) := by
        refine mul_le_mul ?_ unit (two_zpow_pos _).le (two_zpow_pos _).le
        norm_num at bounded ⊢
        linarith
    _ = 2 ^ (1024 : ℤ) := by
        rw [← zpow_add₀ (by norm_num)]
        norm_num

/-- Decimals that a double covers have their point within some bounds. -/
theorem Covers.point_bounds (proper : x.Proper) (covered : x.Covers d.value) :
    0 < d.digits ∧ -340 ≤ d.point ∧ d.point ≤ 320 := by
  have lower := proper.lower_ge.trans covered.lower_le
  have upper := covered.le_upper.trans proper.upper_le
  have positive : 0 < d.digits := by
    rcases Nat.eq_zero_or_pos d.digits with zero | positive
    · rw [Decimal.value, zero, Nat.cast_zero, zero_mul] at lower
      exact absurd lower (not_le.mpr (two_zpow_pos _))
    · exact positive
  refine ⟨positive, ?_, ?_⟩
  · by_contra small
    have tiny : (10 : ℚ) ^ d.point ≤ 10 ^ (-341 : ℤ) := Decimal.ten_zpow_mono (by omega)
    have gap : (10 : ℚ) ^ (-341 : ℤ) < 2 ^ (-1075 : ℤ) := by
      have natural : 2 ^ 1075 < 10 ^ 341 := by decide +kernel
      rw [zpow_neg, zpow_neg]
      exact inv_strictAnti₀ (by positivity) (by exact_mod_cast natural)
    exact absurd (lower.trans (d.value_lt.le.trans tiny)) (not_le.mpr gap)
  · by_contra large
    have huge : (10 : ℚ) ^ (320 : ℤ) ≤ 10 ^ (d.point - 1) := Decimal.ten_zpow_mono (by omega)
    have gap : (2 : ℚ) ^ (1024 : ℤ) < 10 ^ (320 : ℤ) := by
      have natural : 2 ^ 1024 < 10 ^ 320 := by decide +kernel
      exact_mod_cast natural
    exact absurd (huge.trans ((Decimal.le_value positive).trans upper)) (not_le.mpr gap)

/-- A decimal is read as the double that covers it. -/
theorem Covers.toModel_toFloat (proper : x.Proper) (covered : x.Covers d.value) :
    d.toFloat.toModel = .pack (.finite .positive x.mantissa x.exponent proper.positive) := by
  obtain ⟨positive, least, greatest⟩ := covered.point_bounds proper
  have bits := Decimal.length_le_log2 positive
  have point : d.point = Decimal.length d.digits + d.exponent := rfl
  rw [Decimal.toFloat, if_neg (by omega), if_neg (by omega)]
  exact covered.toModel_ofScientific proper positive (by omega) (by omega)

end Binary

end ArenaVariations
