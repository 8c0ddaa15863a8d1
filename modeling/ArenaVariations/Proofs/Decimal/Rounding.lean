import Mathlib
import ArenaVariations.Decimal.Reading

/-!
# Rounding to doubles

Lean describes the operations on doubles by a model, in which the exact result of an operation is
a mantissa with two residual bits that is rounded to the nearest double. Here this is said of
rational numbers. A double covers the numbers between the midpoints to its neighbours, and whatever
it covers is rounded to it: `Binary.Covers.roundWithAccuracy`. From this follow a product, a
quotient, and a decimal.

What is cut off from a quotient of natural numbers is known by its remainder, so all mantissas
are seen as quotients.
-/

namespace ArenaVariations

open Float.Model Float.Model.UnpackedFloat

/-- The mantissa of a quotient, with the residual bits that tell what is left of it. -/
def quotient (n d : Nat) : ExtendedMantissa :=
  .ofMantissaAndAccuracy (n / d) (accuracyOfFraction (n % d) d)

theorem quotient_eq {n d q r : Nat} (split : n = d * q + r) (small : r < d) :
    quotient n d = ⟨q, decide (d ≤ 2 * r), decide (r ≠ 0 ∧ 2 * r ≠ d)⟩ := by
  have div : n / d = q := by
    rw [split, Nat.mul_add_div (by omega), Nat.div_eq_of_lt small, Nat.add_zero]
  have mod : n % d = r := by
    rw [split, Nat.mul_add_mod, Nat.mod_eq_of_lt small]
  rw [quotient, div, mod, accuracyOfFraction]
  rcases Nat.eq_zero_or_pos r with rfl | positive
  · have : ¬ d ≤ 0 := by omega
    simp [ExtendedMantissa.ofMantissaAndAccuracy, this]
  · rw [if_neg (by omega)]
    rcases Nat.lt_trichotomy (2 * r) d with lt | eq | gt
    · rw [Nat.compare_eq_lt.mpr lt]
      simp only [ExtendedMantissa.ofMantissaAndAccuracy, ExtendedMantissa.mk.injEq, true_and]
      constructor <;> symm <;> simp <;> omega
    · rw [Nat.compare_eq_eq.mpr eq]
      simp only [ExtendedMantissa.ofMantissaAndAccuracy, ExtendedMantissa.mk.injEq, true_and]
      constructor <;> symm <;> simp <;> omega
    · rw [Nat.compare_eq_gt.mpr gt]
      simp only [ExtendedMantissa.ofMantissaAndAccuracy, ExtendedMantissa.mk.injEq, true_and]
      constructor <;> symm <;> simp <;> omega

theorem shiftRightOne_quotient (n : Nat) {d : Nat} (positive : 0 < d) :
    (quotient n d).shiftRightOne = quotient n (d * 2) := by
  have split : n = d * (n / d) + n % d := (Nat.div_add_mod n d).symm
  have small : n % d < d := Nat.mod_lt n positive
  generalize n / d = q at split
  generalize n % d = r at split small
  have half : q = 2 * (q / 2) + q % 2 := (Nat.div_add_mod q 2).symm
  have bit : q % 2 = 0 ∨ q % 2 = 1 := Nat.mod_two_eq_zero_or_one q
  rw [quotient_eq split small, quotient_eq (q := q / 2) (r := d * (q % 2) + r)]
  · simp only [ExtendedMantissa.shiftRightOne, ExtendedMantissa.mk.injEq, true_and]
    rcases bit with bit | bit <;> simp only [bit] <;> constructor
    · symm; simp; omega
    · simp only [← Bool.decide_or, decide_eq_decide]; omega
    · symm; simp; omega
    · simp only [← Bool.decide_or, decide_eq_decide]; omega
  · rw [split]
    conv_lhs => rw [half]
    ring
  · rcases bit with bit | bit <;> rw [bit] <;> omega

theorem shiftRight_quotient (n : Nat) {d : Nat} (positive : 0 < d) (k : Nat) :
    quotient n d >>> k = quotient n (d * 2 ^ k) := by
  induction k with
  | zero => simp [HShiftRight.hShiftRight, Nat.repeat]
  | succ k ih =>
    change (quotient n d >>> k).shiftRightOne = _
    rw [ih, shiftRightOne_quotient n (Nat.mul_pos positive (Nat.two_pow_pos k)), Nat.pow_succ,
      Nat.mul_assoc]

theorem roundedMantissa_eq (q : Nat) (half more : Bool) :
    ExtendedMantissa.roundedMantissa ⟨q, half, more⟩ =
      if half then if more then q + 1 else q + q % 2 else q := by
  cases half <;> cases more <;> rfl

/-- A quotient is rounded to the nearest number, a tie to the even one. -/
theorem roundedMantissa_quotient {n d m : Nat} (positive : 0 < d)
    (lower : 2 * (d * m) < 2 * n + d ∨ m % 2 = 0 ∧ 2 * (d * m) = 2 * n + d)
    (upper : 2 * n < 2 * (d * m) + d ∨ m % 2 = 0 ∧ 2 * n = 2 * (d * m) + d) :
    (quotient n d).roundedMantissa = m := by
  have split : n = d * (n / d) + n % d := (Nat.div_add_mod n d).symm
  have small : n % d < d := Nat.mod_lt n positive
  generalize n / d = q at split
  generalize n % d = r at split small
  rw [quotient_eq split small, roundedMantissa_eq]
  -- The nearest number is the quotient or the next one.
  rcases Nat.lt_trichotomy m q with lt | rfl | gt
  · have := Nat.mul_le_mul_left d (Nat.succ_le_of_lt lt)
    rw [Nat.mul_succ] at this
    omega
  · have below : 2 * r < d ∨ m % 2 = 0 ∧ 2 * r = d := by omega
    obtain lt | ⟨even, eq⟩ := below
    · simp [lt]
    · simp [eq, even]
  · obtain rfl | far := Nat.eq_or_lt_of_le (Nat.succ_le_of_lt gt)
    · rw [Nat.succ_eq_add_one, Nat.mul_add, Nat.mul_one] at lower upper
      have above : d < 2 * r ∨ (q + 1) % 2 = 0 ∧ 2 * r = d := by omega
      obtain lt | ⟨even, eq⟩ := above
      · have nonzero : r ≠ 0 := by omega
        simp [lt.le, lt.ne', nonzero]
      · simp [eq]
        omega
    · have := Nat.mul_le_mul_left d far
      rw [Nat.mul_succ, Nat.mul_succ] at this
      omega

/-- A format's exponent as the doubles have it. -/
theorem targetExponent_eq (m : Nat) (e : Int) :
    Format.binary64.targetExponent (totalExponent m e) = max (m.log2 + e - 52) (-1074) := by
  simp only [Format.targetExponent, totalExponent, Format.mantissaBits, Format.minExponent]
  omega

theorem two_zpow_mono {a b : Int} (h : a ≤ b) : (2 : ℚ) ^ a ≤ 2 ^ b :=
  zpow_le_zpow_right₀ (by norm_num) h

theorem two_zpow_pos (a : Int) : (0 : ℚ) < 2 ^ a :=
  zpow_pos (by norm_num) a

/-- The exponent that is chosen for a quotient leaves at most 53 bits, and fewer only if it is the
least one. -/
theorem targetExponent_spec {n d : Nat} {e t : Int} (positive : 0 < d)
    (target : Format.binary64.targetExponent (totalExponent (n / d) e) = t) (low : e ≤ t) :
    -1074 ≤ t ∧ (n / d : ℚ) * 2 ^ e < 2 ^ (53 + t) ∧
      (t = -1074 ∨ 2 ^ (52 + t) ≤ (n / d : ℚ) * 2 ^ e) := by
  rw [targetExponent_eq] at target
  have divisor : (0 : ℚ) < d := by exact_mod_cast positive
  have below : (n / d : ℚ) < 2 ^ ((n / d).log2 + 1 : ℤ) := by
    rw [div_lt_iff₀ divisor]
    have bits : n / d < 2 ^ ((n / d).log2 + 1) := Nat.lt_log2_self
    have := (Nat.div_lt_iff_lt_mul positive).mp bits
    exact_mod_cast this
  refine ⟨by omega, ?_, ?_⟩
  · calc (n / d : ℚ) * 2 ^ e < 2 ^ ((n / d).log2 + 1 : ℤ) * 2 ^ e :=
          mul_lt_mul_of_pos_right below (two_zpow_pos e)
      _ = 2 ^ ((n / d).log2 + 1 + e : ℤ) := (zpow_add₀ (by norm_num) _ _).symm
      _ ≤ 2 ^ (53 + t) := two_zpow_mono (by omega)
  · rcases Nat.eq_zero_or_pos (n / d) with zero | nonzero
    · rw [zero, Nat.log2_zero] at target
      left
      omega
    · rcases Int.lt_or_le ((n / d).log2 + e - 52) (-1074) with least | above
      · left
        omega
      · right
        have leading : (2 : ℚ) ^ ((n / d).log2 : ℤ) ≤ n / d := by
          rw [le_div_iff₀ divisor]
          have bits : 2 ^ (n / d).log2 ≤ n / d := Nat.log2_self_le nonzero.ne'
          have := (Nat.le_div_iff_mul_le positive).mp bits
          exact_mod_cast this
        calc (2 : ℚ) ^ (52 + t) ≤ 2 ^ ((n / d).log2 + e : ℤ) := two_zpow_mono (by omega)
          _ = 2 ^ ((n / d).log2 : ℤ) * 2 ^ e := zpow_add₀ (by norm_num) _ _
          _ ≤ n / d * 2 ^ e := mul_le_mul_of_nonneg_right leading (two_zpow_pos e).le

/-- Rounding starts by cutting a quotient off at its exponent. -/
theorem shiftToTargetExponent_quotient {n d : Nat} {e t : Int} (positive : 0 < d)
    (target : Format.binary64.targetExponent (totalExponent (n / d) e) = t) (low : e ≤ t) :
    shiftToTargetExponent .binary64 (n / d) e (accuracyOfFraction (n % d) d) =
      (quotient n (d * 2 ^ (t - e).toNat), t) := by
  rw [shiftToTargetExponent, target, shiftToExponent]
  change (quotient n d >>> (t - e).toNat, e + ((t - e).toNat : Int)) = _
  rw [shiftRight_quotient n positive]
  congr 1
  omega

theorem shiftToTargetExponent_of_eq {m : Nat} {e : Int}
    (target : Format.binary64.targetExponent (totalExponent m e) = e) :
    shiftToTargetExponent .binary64 m e .exact = (⟨m, false, false⟩, e) := by
  rw [shiftToTargetExponent, target, shiftToExponent]
  simp [HShiftRight.hShiftRight, Nat.repeat, ExtendedMantissa.ofMantissaAndAccuracy]

/-- A mantissa that was rounded up to the next power of two gives its last bit to the exponent. -/
theorem shiftToTargetExponent_overflow {e : Int} (least : -1074 ≤ e) :
    shiftToTargetExponent .binary64 (2 ^ 53) e .exact = (⟨2 ^ 52, false, false⟩, e + 1) := by
  have target : Format.binary64.targetExponent (totalExponent (2 ^ 53) e) = e + 1 := by
    rw [targetExponent_eq, Nat.log2_two_pow]
    omega
  rw [shiftToTargetExponent, target, shiftToExponent]
  have one : (e + 1 - e).toNat = 1 := by omega
  rw [one]
  rfl

namespace Binary

/-- The number that a double is. -/
def value (x : Binary) : ℚ :=
  x.mantissa * 2 ^ x.exponent

/-- The positive finite doubles, with the mantissa and the exponent that they have. -/
structure Proper (x : Binary) : Prop where
  positive : 0 < x.mantissa
  bounded : x.mantissa < 2 ^ 53
  normal : 2 ^ 52 ≤ x.mantissa ∨ x.exponent = -1074
  least : -1074 ≤ x.exponent
  greatest : x.exponent ≤ 971
  narrow : x.narrowBelow = true ↔ x.mantissa = 2 ^ 52 ∧ -1074 < x.exponent

/-- The midpoint between a double and its neighbour below. -/
def lower (x : Binary) : ℚ :=
  (4 * x.mantissa - if x.narrowBelow then 1 else 2) * 2 ^ (x.exponent - 2)

/-- The midpoint between a double and its neighbour above. -/
def upper (x : Binary) : ℚ :=
  (4 * x.mantissa + 2) * 2 ^ (x.exponent - 2)

/-- The numbers that are rounded to a double: those between the midpoints, and the midpoints
themselves if its mantissa is even. -/
def Covers (x : Binary) (v : ℚ) : Prop :=
  (x.lower < v ∨ x.mantissa % 2 = 0 ∧ x.lower = v) ∧
    (v < x.upper ∨ x.mantissa % 2 = 0 ∧ v = x.upper)

variable {x : Binary} {v : ℚ}

theorem Covers.lower_le (h : x.Covers v) : x.lower ≤ v := by
  obtain ⟨lt | ⟨-, eq⟩, -⟩ := h
  · exact lt.le
  · exact eq.le

theorem Covers.le_upper (h : x.Covers v) : v ≤ x.upper := by
  obtain ⟨-, lt | ⟨-, eq⟩⟩ := h
  · exact lt.le
  · exact eq.le

/-- A quarter of the gap above. -/
theorem quarter (e : Int) : (2 : ℚ) ^ e = 4 * 2 ^ (e - 2) := by
  rw [show e = 2 + (e - 2) by omega, zpow_add₀ (by norm_num)]
  norm_num

/-- What a double covers, in units of its last place. -/
theorem covers_mul_two_zpow {u : ℚ} : x.Covers (u * 2 ^ x.exponent) ↔
    ((4 * x.mantissa - if x.narrowBelow then 1 else 2 : ℚ) < 4 * u ∨
      x.mantissa % 2 = 0 ∧ (4 * x.mantissa - if x.narrowBelow then 1 else 2 : ℚ) = 4 * u) ∧
    (4 * u < (4 * x.mantissa + 2 : ℚ) ∨ x.mantissa % 2 = 0 ∧ 4 * u = (4 * x.mantissa + 2 : ℚ)) := by
  have unit := two_zpow_pos (x.exponent - 2)
  rw [quarter, ← mul_assoc, mul_comm u 4]
  simp only [Covers, lower, upper, mul_lt_mul_iff_left₀ unit, mul_left_inj' unit.ne']

/-- The exponent that is chosen for a number that is rounded to a double is the one of the double,
or the one below if the number is below a power of two. -/
theorem Covers.exponent (proper : x.Proper) (covered : x.Covers v) {t : Int} (least : -1074 ≤ t)
    (below : v < 2 ^ (53 + t)) (above : t = -1074 ∨ 2 ^ (52 + t) ≤ v) :
    t = x.exponent ∧ (x.narrowBelow = true → 2 ^ (52 + x.exponent) ≤ v) ∨
      t = x.exponent - 1 ∧ x.narrowBelow = true ∧ v < 2 ^ (52 + x.exponent) := by
  have unit := two_zpow_pos (x.exponent - 2)
  have bits : ∀ k : Nat, (2 : ℚ) ^ (k + x.exponent) = 2 ^ k * 4 * 2 ^ (x.exponent - 2) := by
    intro k
    rw [zpow_add₀ (by norm_num), zpow_natCast, quarter x.exponent, mul_assoc]
  have inside : v < 2 ^ ((53 : Nat) + x.exponent) := by
    refine covered.le_upper.trans_lt ?_
    have bounded : (x.mantissa : ℚ) + 1 ≤ 2 ^ 53 := by exact_mod_cast proper.bounded
    rw [bits, upper]
    exact mul_lt_mul_of_pos_right (by linarith) unit
  rcases Int.lt_trichotomy t x.exponent with lt | rfl | gt
  · right
    have normal : 2 ^ 52 ≤ x.mantissa := proper.normal.resolve_right (by omega)
    have small : v < 2 ^ (52 + x.exponent) := below.trans_le (two_zpow_mono (by omega))
    have narrow : x.narrowBelow = true := by
      by_contra wide
      have more : 2 ^ 52 + 1 ≤ x.mantissa := by
        have := mt proper.narrow.mpr wide
        omega
      have more : (2 : ℚ) ^ 52 + 1 ≤ x.mantissa := by exact_mod_cast more
      refine absurd (covered.lower_le.trans_lt small) (not_lt.mpr ?_)
      rw [lower, if_neg wide, show (52 : ℤ) = (52 : Nat) from rfl, bits]
      exact mul_le_mul_of_nonneg_right (by linarith) unit.le
    refine ⟨?_, narrow, small⟩
    by_contra far
    have tiny : v < 2 ^ ((51 : Nat) + x.exponent) :=
      below.trans_le (two_zpow_mono (by norm_num; omega))
    refine absurd (covered.lower_le.trans_lt tiny) (not_lt.mpr ?_)
    have normal : (2 : ℚ) ^ 52 ≤ x.mantissa := by exact_mod_cast normal
    rw [lower, if_pos narrow, bits]
    exact mul_le_mul_of_nonneg_right (by linarith) unit.le
  · left
    refine ⟨rfl, fun narrow => above.resolve_left ?_⟩
    have := (proper.narrow.mp narrow).2
    omega
  · have large := above.resolve_left (by have := proper.least; omega)
    exact absurd (large.trans_lt inside) (not_lt.mpr (two_zpow_mono (by norm_num; omega)))

end Binary

/-- A number that is rounded to a double, in units of the double's last place. -/
theorem roundedMantissa_of_near {n d m : Nat} (positive : 0 < d)
    (lower : (2 * m - 1 : ℚ) < 2 * (n / d) ∨ m % 2 = 0 ∧ (2 * m - 1 : ℚ) = 2 * (n / d))
    (upper : 2 * (n / d) < (2 * m + 1 : ℚ) ∨ m % 2 = 0 ∧ 2 * (n / d) = (2 * m + 1 : ℚ)) :
    (quotient n d).roundedMantissa = m := by
  have divisor : (0 : ℚ) < d := by exact_mod_cast positive
  have cleared : (n : ℚ) = n / d * d := (div_mul_cancel₀ _ divisor.ne').symm
  generalize (n / d : ℚ) = u at lower upper cleared
  refine roundedMantissa_quotient positive ?_ ?_
  · refine lower.imp (fun lt => ?_) (And.imp_right fun eq => ?_)
    · have : (2 * (d * m) : ℚ) < 2 * n + d := by
        rw [cleared]
        linarith [mul_lt_mul_of_pos_right lt divisor]
      exact_mod_cast this
    · have : (2 * (d * m) : ℚ) = 2 * n + d := by
        rw [cleared]
        linear_combination d * eq
      exact_mod_cast this
  · refine upper.imp (fun lt => ?_) (And.imp_right fun eq => ?_)
    · have : (2 * n : ℚ) < 2 * (d * m) + d := by
        rw [cleared]
        linarith [mul_lt_mul_of_pos_right lt divisor]
      exact_mod_cast this
    · have : (2 * n : ℚ) = 2 * (d * m) + d := by
        rw [cleared]
        linear_combination d * eq
      exact_mod_cast this

namespace Binary

variable {x : Binary}

theorem Proper.targetExponent (proper : x.Proper) :
    Format.binary64.targetExponent (totalExponent x.mantissa x.exponent) = x.exponent := by
  rw [targetExponent_eq]
  have bounded : x.mantissa.log2 < 53 := (Nat.log2_lt proper.positive.ne').mpr proper.bounded
  have least := proper.least
  obtain normal | least := proper.normal
  · have : 52 ≤ x.mantissa.log2 := (Nat.le_log2 proper.positive.ne').mpr normal
    omega
  · omega

/-- A quotient may have more units, as many as its exponent is raised. -/
theorem quotient_mul_two_zpow (n d : Nat) {e t : Int} (low : e ≤ t) :
    (n / d : ℚ) * 2 ^ e = n / (d * 2 ^ (t - e).toNat : Nat) * 2 ^ t := by
  have shift : (2 : ℚ) ^ t = 2 ^ (t - e).toNat * 2 ^ e := by
    rw [← zpow_natCast, ← zpow_add₀ (by norm_num)]
    congr 1
    omega
  rw [shift]
  push_cast
  field_simp

/-- In units of the last place of a double, a quotient that it covers is rounded to its mantissa. -/
theorem Covers.roundedMantissa (proper : x.Proper) {n units : Nat} (divisor : 0 < units)
    (covered : x.Covers (n / units * 2 ^ x.exponent))
    (wide : x.narrowBelow = true → (2 : ℚ) ^ (52 + x.exponent) ≤ n / units * 2 ^ x.exponent) :
    (quotient n units).roundedMantissa = x.mantissa := by
  obtain ⟨lower, upper⟩ := covers_mul_two_zpow.mp covered
  refine roundedMantissa_of_near divisor ?_
    (upper.imp (fun lt => by linarith) (And.imp_right fun eq => by linarith))
  by_cases narrow : x.narrowBelow = true
  · have power : (x.mantissa : ℚ) = 2 ^ 52 := by exact_mod_cast (proper.narrow.mp narrow).1
    have whole := wide narrow
    rw [zpow_add₀ (by norm_num), mul_le_mul_iff_left₀ (two_zpow_pos _)] at whole
    left
    rw [power]
    norm_num at whole ⊢
    linarith
  · rw [if_neg narrow] at lower
    exact lower.imp (fun lt => by linarith) (And.imp_right fun eq => by linarith)

/-- In units of half the last place of a power of two, a quotient below it that it covers is rounded
to the power. -/
theorem Covers.roundedMantissa_below (proper : x.Proper) {n units : Nat} (divisor : 0 < units)
    (covered : x.Covers (n / units * 2 ^ (x.exponent - 1))) (narrow : x.narrowBelow = true)
    (small : (n / units * 2 ^ (x.exponent - 1) : ℚ) < 2 ^ (52 + x.exponent)) :
    (quotient n units).roundedMantissa = 2 ^ 53 := by
  have halved : (n / units : ℚ) * 2 ^ (x.exponent - 1) = n / units / 2 * 2 ^ x.exponent := by
    rw [zpow_sub_one₀ (by norm_num)]
    ring
  rw [halved] at covered small
  rw [zpow_add₀ (by norm_num), mul_lt_mul_iff_left₀ (two_zpow_pos _)] at small
  obtain ⟨lower, -⟩ := covers_mul_two_zpow.mp covered
  rw [if_pos narrow, (proper.narrow.mp narrow).1] at lower
  push_cast at lower
  norm_num at small lower
  refine roundedMantissa_of_near divisor (lower.imp (fun lt => ?_) fun eq => ?_) (.inl ?_)
  · push_cast
    linarith
  · refine ⟨by norm_num, ?_⟩
    push_cast
    linarith
  · push_cast
    linarith

/-- A quotient that a double covers is rounded to it. -/
theorem Covers.roundWithAccuracy (proper : x.Proper) {n d : Nat} {e : Int} (positive : 0 < d)
    (covered : x.Covers (n / d * 2 ^ e))
    (low : e ≤ Format.binary64.targetExponent (totalExponent (n / d) e)) (s : Sign) :
    roundWithAccuracy .binary64 s (n / d) e (accuracyOfFraction (n % d) d) =
      .finite s x.mantissa x.exponent proper.positive := by
  obtain ⟨t, target⟩ : ∃ t, Format.binary64.targetExponent (totalExponent (n / d) e) = t :=
    ⟨_, rfl⟩
  rw [target] at low
  obtain ⟨least, below, above⟩ := targetExponent_spec positive target low
  have divisor : 0 < d * 2 ^ (t - e).toNat := Nat.mul_pos positive (Nat.two_pow_pos _)
  rw [UnpackedFloat.roundWithAccuracy, shiftToTargetExponent_quotient positive target low]
  dsimp only
  rw [quotient_mul_two_zpow n d low] at covered below above
  generalize d * 2 ^ (t - e).toNat = units at *
  obtain ⟨rfl, wide⟩ | ⟨rfl, narrow, small⟩ := covered.exponent proper least below above
  · rw [covered.roundedMantissa proper divisor wide,
      shiftToTargetExponent_of_eq proper.targetExponent]
    simp [proper.positive.ne']
  · obtain ⟨power, above⟩ := proper.narrow.mp narrow
    rw [covered.roundedMantissa_below proper divisor narrow small,
      shiftToTargetExponent_overflow (by omega)]
    simp [power]

/-- A product that a double covers is rounded to it. -/
theorem Covers.mul (proper : x.Proper) {m k : Nat} {e f : Int} (first : 0 < m) (second : 0 < k)
    (covered : x.Covers (m * 2 ^ e * (k * 2 ^ f))) (enough : 2 ^ 52 ≤ m * k) (s r : Sign) :
    UnpackedFloat.mul .binary64 (.finite s m e first) (.finite r k f second) =
      .finite (s * r) x.mantissa x.exponent proper.positive := by
  have product : (m * 2 ^ e * (k * 2 ^ f) : ℚ) = (m * k : Nat) / (1 : Nat) * 2 ^ (e + f) := by
    rw [zpow_add₀ (by norm_num)]
    push_cast
    ring
  have low : e + f ≤ Format.binary64.targetExponent (totalExponent (m * k / 1) (e + f)) := by
    rw [targetExponent_eq, Nat.div_one]
    have := (Nat.le_log2 (Nat.mul_pos first second).ne').mpr enough
    omega
  have rounded := (product ▸ covered).roundWithAccuracy proper Nat.one_pos low (s * r)
  rwa [Nat.div_one, Nat.mod_one] at rounded

/-- The quotient of two mantissas is computed to enough bits. -/
theorem divCore_low {m k : Nat} (e f : Int) (first : 0 < m) (second : 0 < k) :
    (divCore .binary64 m e k f).2.1 ≤ Format.binary64.targetExponent
      (totalExponent (divCore .binary64 m e k f).1 (divCore .binary64 m e k f).2.1) := by
  obtain ⟨t, target⟩ : ∃ t, min (e - f)
    (Format.binary64.targetExponent (totalExponent m e - totalExponent k f)) = t := ⟨_, rfl⟩
  have least : t ≤ max (m.log2 + e - (k.log2 + f) - 53 : ℤ) (-1074) := by
    rw [← target]
    refine (min_le_right _ _).trans (le_of_eq ?_)
    simp only [Format.targetExponent, totalExponent, Format.mantissaBits, Format.minExponent]
    omega
  have before : t ≤ e - f := target ▸ min_le_left _ _
  simp only [divCore, target, Nat.shiftLeft_eq]
  rw [targetExponent_eq]
  rcases Int.lt_or_le (-1074) t with above | below
  · have bits : 2 ^ 52 ≤ m * 2 ^ (e - f - t).toNat / k := by
      rw [Nat.le_div_iff_mul_le second]
      calc 2 ^ 52 * k ≤ 2 ^ 52 * 2 ^ (k.log2 + 1) :=
            Nat.mul_le_mul_left _ Nat.lt_log2_self.le
        _ = 2 ^ (53 + k.log2) := by ring
        _ ≤ 2 ^ (m.log2 + (e - f - t).toNat) := Nat.pow_le_pow_right (by decide) (by omega)
        _ = 2 ^ m.log2 * 2 ^ (e - f - t).toNat := Nat.pow_add ..
        _ ≤ m * 2 ^ (e - f - t).toNat :=
            Nat.mul_le_mul_right _ (Nat.log2_self_le first.ne')
    have nonzero : m * 2 ^ (e - f - t).toNat / k ≠ 0 := by
      intro zero
      rw [zero] at bits
      omega
    have := (Nat.le_log2 nonzero).mpr bits
    omega
  · omega

theorem value_divCore {m k : Nat} (e f : Int) (second : 0 < k) :
    ∃ n : Nat, divCore .binary64 m e k f =
        (n / k, (divCore .binary64 m e k f).2.1, accuracyOfFraction (n % k) k) ∧
      (n / k : ℚ) * 2 ^ (divCore .binary64 m e k f).2.1 = m * 2 ^ e / (k * 2 ^ f) := by
  obtain ⟨t, target⟩ : ∃ t, min (e - f)
    (Format.binary64.targetExponent (totalExponent m e - totalExponent k f)) = t := ⟨_, rfl⟩
  have before : t ≤ e - f := target ▸ min_le_left _ _
  refine ⟨m <<< (e - f - t).toNat, by simp only [divCore, target], ?_⟩
  simp only [divCore, target, Nat.shiftLeft_eq]
  have divisor : (k : ℚ) ≠ 0 := by exact_mod_cast second.ne'
  have shift : (2 : ℚ) ^ (e - f - t).toNat * 2 ^ t = 2 ^ e / 2 ^ f := by
    rw [← zpow_natCast, ← zpow_add₀ (by norm_num), ← zpow_sub₀ (by norm_num)]
    congr 1
    omega
  push_cast
  calc (m * 2 ^ (e - f - t).toNat / k * 2 ^ t : ℚ)
      = m / k * (2 ^ (e - f - t).toNat * 2 ^ t) := by ring
    _ = m * 2 ^ e / (k * 2 ^ f) := by rw [shift, div_mul_div_comm]

/-- A quotient that a double covers is rounded to it. -/
theorem Covers.div (proper : x.Proper) {m k : Nat} {e f : Int} (first : 0 < m) (second : 0 < k)
    (covered : x.Covers (m * 2 ^ e / (k * 2 ^ f))) (s r : Sign) :
    UnpackedFloat.div .binary64 (.finite s m e first) (.finite r k f second) =
      .finite (s / r) x.mantissa x.exponent proper.positive := by
  have low := divCore_low e f first second
  obtain ⟨n, split, value⟩ := value_divCore (m := m) e f second
  rw [UnpackedFloat.div]
  generalize divCore .binary64 m e k f = core at *
  obtain ⟨q, t, accuracy⟩ := core
  obtain ⟨rfl, -, rfl⟩ := by simpa using split
  exact (value.symm ▸ covered : x.Covers (n / k * 2 ^ t)).roundWithAccuracy proper second low
    (s / r)

/-- The nearest double to a decimal is the one that covers it. The bounds on the exponent say that
the decimal is not refused before it is looked at. -/
theorem Covers.ofScientific (proper : x.Proper) {m : Nat} {e : Int} (positive : 0 < m)
    (covered : x.Covers (m * 10 ^ e)) (large : e ≤ 2048) (small : -(2048 + m.log2 : Int) ≤ e) :
    UnpackedFloat.ofScientific .binary64 m e =
      .finite .positive x.mantissa x.exponent proper.positive := by
  rw [UnpackedFloat.ofScientific, dif_neg positive.ne']
  rw [if_neg (not_lt.mpr (by simpa using large)), if_neg (not_lt.mpr (by simpa using small))]
  split
  case isTrue whole =>
    have shifted : 0 < m <<< Format.binary64.mantissaBits := by
      simpa [Nat.pos_iff_ne_zero] using positive.ne'
    have power : 0 < 10 ^ e.toNat := Nat.pow_pos (by decide)
    have exact : (m * 10 ^ e : ℚ) = (m <<< Format.binary64.mantissaBits : Nat) *
        2 ^ (-Format.binary64.mantissaBits : ℤ) * ((10 ^ e.toNat : Nat) * 2 ^ (0 : ℤ)) := by
      have : (10 : ℚ) ^ e = 10 ^ e.toNat := by
        rw [← zpow_natCast, Int.toNat_of_nonneg whole]
      rw [this, Nat.shiftLeft_eq, zpow_neg, zpow_natCast]
      push_cast
      field_simp
    have enough : 2 ^ 52 ≤ m <<< Format.binary64.mantissaBits * 10 ^ e.toNat := by
      rw [Nat.shiftLeft_eq]
      calc 2 ^ 52 ≤ 1 * 2 ^ 53 * 1 := by norm_num
        _ ≤ m * 2 ^ 53 * 10 ^ e.toNat :=
            Nat.mul_le_mul (Nat.mul_le_mul_right _ positive) power
    exact (exact ▸ covered).mul proper shifted power enough .positive .positive
  case isFalse fraction =>
    have power : 0 < 10 ^ (-e).toNat := Nat.pow_pos (by decide)
    have exact : (m * 10 ^ e : ℚ) = m * 2 ^ (0 : ℤ) / ((10 ^ (-e).toNat : Nat) * 2 ^ (0 : ℤ)) := by
      have : (10 : ℚ) ^ e = (10 ^ (-e).toNat)⁻¹ := by
        rw [← zpow_natCast, ← zpow_neg, Int.toNat_of_nonneg (by omega), neg_neg]
      rw [this]
      push_cast
      field_simp
    exact (exact ▸ covered).div proper positive power .positive .positive

end Binary

end ArenaVariations
