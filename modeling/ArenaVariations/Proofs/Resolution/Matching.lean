import ArenaVariations.Proofs.Decimal.Comparison
import ArenaVariations.Resolution.Conditional

/-!
# Matching numbers

A number satisfies a case that is a number if it is close to it. Being close goes both ways, equal
numbers are close whether they are written as integers or as doubles, and what is not a number is
close to nothing. A number that is infinite makes the tolerance infinite as well, so it is close to
every number: `infinity_matches_one`.
-/

namespace ArenaVariations

open Float.Model Float.Model.UnpackedFloat

section

variable {a b : Float}

theorem unpack_of_isNaN (nan : a.isNaN = true) : a.toModel.unpack = .notANumber := by
  change a.toModel.unpack.isNaN = true at nan
  cases same : a.toModel.unpack with
  | notANumber => rfl
  | _ => rw [same] at nan; cases nan

theorem unpack_of_isInf (infinite : a.isInf = true) :
    a.toModel.unpack = .infinity (signOf a) := by
  change a.toModel.unpack.isInf = true at infinite
  have shape := unpacked a
  generalize a.toModel.unpack = u at infinite shape ⊢
  cases shape with
  | infinity => rfl
  | _ => cases infinite

/-- What is not a number is neither equal to anything nor anywhere near it. -/
theorem apart_of_isNaN (nan : a.isNaN = true) :
    (a == b) = false ∧ ∀ tolerance, ¬ (a - b).abs ≤ tolerance := by
  have unpacked := unpack_of_isNaN nan
  constructor
  · rw [← Bool.not_eq_true, beq_iff, unpacked]
    exact nofun
  · intro tolerance
    have difference : (a - b).abs.toModel.unpack = .notANumber := by
      rw [unpack_abs]
      change (Float.Model.pack (UnpackedFloat.sub .binary64 a.toModel.unpack _)).unpack.abs = _
      have none (v : UnpackedFloat) : UnpackedFloat.sub .binary64 .notANumber v = .notANumber := by
        cases v <;> rfl
      rw [unpacked, none, unpack_pack_notANumber]
      rfl
    rw [le_iff, difference]
    exact Bool.false_ne_true

/-- What is not a number is close to nothing. -/
theorem isClose_of_isNaN (nan : a.isNaN = true ∨ b.isNaN = true) : isClose a b = false := by
  rw [isClose]
  obtain nan | nan := nan
  · obtain ⟨different, apart⟩ := apart_of_isNaN (b := b) nan
    rw [different, decide_eq_false (apart _)]
    rfl
  · obtain ⟨different, apart⟩ := apart_of_isNaN (b := a) nan
    rw [BEq.comm, abs_sub_comm, different, decide_eq_false (apart _)]
    rfl

/-- Being close goes both ways. -/
theorem isClose_comm (a b : Float) : isClose a b = isClose b a := by
  by_cases nan : a.isNaN = true ∨ b.isNaN = true
  · rw [isClose_of_isNaN nan, isClose_of_isNaN nan.symm]
  · obtain ⟨first, second⟩ := not_or.mp nan
    rw [Bool.not_eq_true] at first second
    rw [isClose, isClose, BEq.comm, abs_sub_comm, max_abs_comm first second]

theorem isClose_of_beq (same : (a == b) = true) : isClose a b = true := by
  rw [isClose, same, Bool.true_or]

theorem unpack_closeness : ∃ m e, ∃ positive : 0 < m,
    closeness.toModel.unpack = .finite .positive m e positive := by
  have parts : closeness.isNaN = false ∧ closeness.isInf = false ∧
      (Binary.ofFloat closeness).mantissa ≠ 0 ∧ closeness.toBits >>> 63 ≠ 1 := by
    decide
  obtain ⟨real, bounded, nonzero, above⟩ := parts
  obtain ⟨proper, packed⟩ := toModel_eq_pack_finite real bounded nonzero
  rw [packed, signOf, if_neg above, proper.unpack_pack]
  exact ⟨_, _, _, rfl⟩

/-- The larger of two magnitudes is infinite if the first one is. -/
theorem unpack_max_of_isInf (infinite : a.isInf = true) :
    (max a.abs b.abs).toModel.unpack = .infinity .positive := by
  have unpacked := unpack_of_isInf infinite
  have first : a.abs.toModel.unpack = .infinity .positive := by
    rw [unpack_abs, unpacked]
    rfl
  change (if a.abs ≤ b.abs then b.abs else a.abs).toModel.unpack = _
  split
  case isTrue below =>
    rw [le_iff, first, unpack_abs] at below
    rw [unpack_abs]
    cases same : b.toModel.unpack with
    | infinity t => rfl
    | _ => rw [same] at below; cases below
  case isFalse => exact first

/-- What is infinite is close to every number. -/
theorem isClose_of_isInf (infinite : a.isInf = true) (real : b.isNaN = false) :
    isClose a b = true := by
  have first := unpack_of_isInf infinite
  generalize signOf a = s at first
  have tolerance : (closeness * max a.abs b.abs).toModel.unpack = .infinity .positive := by
    obtain ⟨m, e, positive, factor⟩ := unpack_closeness
    change (Float.Model.pack (UnpackedFloat.mul .binary64 closeness.toModel.unpack
      (max a.abs b.abs).toModel.unpack)).unpack = _
    rw [factor, unpack_max_of_isInf infinite]
    exact unpack_pack_infinity .positive
  have outcome : (a == b) = true ∨ (a - b).abs.toModel.unpack = .infinity .positive := by
    rw [beq_iff, unpack_abs]
    change _ ∨ (Float.Model.pack (UnpackedFloat.sub .binary64 a.toModel.unpack
      b.toModel.unpack)).unpack.abs = _
    rw [first]
    change b.toModel.unpack.isNaN = false at real
    have infinite : (Float.Model.pack (.infinity s)).unpack.abs = .infinity .positive := by
      rw [unpack_pack_infinity]
      rfl
    cases same : b.toModel.unpack with
    | notANumber => rw [same] at real; cases real
    | infinity t =>
      cases s <;> cases t
      · exact .inl rfl
      · exact .inr infinite
      · exact .inr infinite
      · exact .inl rfl
    | zero | finite => exact .inr infinite
  obtain same | far := outcome
  · exact isClose_of_beq same
  · have within : (a - b).abs ≤ closeness * max a.abs b.abs := by
      rw [le_iff, far, tolerance]
      rfl
    rw [isClose, decide_eq_true within, Bool.or_true]

end

/-- What a number stands for: a rational number or an infinity. -/
inductive Quantity where
  | rational (value : ℚ)
  | infinity (sign : Sign)

namespace Scalar

/-- What an integer or a double stands for exactly. -/
def quantity? : Scalar → Option Quantity
  | int i => some (.rational i.toInt)
  | float x =>
    if x.isNaN then none
    else if x.isInf then some (.infinity (signOf x))
    else some (.rational (signedValue x))
  | _ => none

variable {v c : Scalar} {x y : Float}

theorem quantity?_eq_none_iff : (float x).quantity? = none ↔ x.isNaN = true := by
  rw [quantity?]
  cases x.isNaN <;> cases x.isInf <;> simp

theorem quantity?_eq_infinity_iff {s : Sign} : (float x).quantity? = some (.infinity s) ↔
    x.isNaN = false ∧ x.isInf = true ∧ signOf x = s := by
  rw [quantity?]
  cases x.isNaN <;> cases x.isInf <;> simp

theorem quantity?_eq_rational_iff {r : ℚ} : (float x).quantity? = some (.rational r) ↔
    x.isNaN = false ∧ x.isInf = false ∧ signedValue x = r := by
  rw [quantity?]
  cases x.isNaN <;> cases x.isInf <;> simp

/-- An integer and a double that stand for the same are equal as doubles. -/
theorem ofInt_beq_of_quantity? {i : Int} (same : (float x).quantity? = some (.rational i)) :
    (Float.ofInt i == x) = true := by
  obtain ⟨real, bounded, value⟩ := quantity?_eq_rational_iff.mp same
  exact ofInt_beq real bounded value

/-- Doubles that stand for the same are equal. -/
theorem beq_of_quantity? (same : (float x).quantity? = (float y).quantity?)
    (number : (float x).quantity? ≠ none) : (x == y) = true := by
  obtain ⟨q, first⟩ := Option.ne_none_iff_exists'.mp number
  have second := same.symm.trans first
  cases q with
  | rational r =>
    obtain ⟨real, bounded, value⟩ := quantity?_eq_rational_iff.mp first
    obtain ⟨real', bounded', value'⟩ := quantity?_eq_rational_iff.mp second
    exact beq_of_signedValue_eq real bounded real' bounded' (value.trans value'.symm)
  | infinity s =>
    obtain ⟨-, infinite, sign⟩ := quantity?_eq_infinity_iff.mp first
    obtain ⟨-, infinite', sign'⟩ := quantity?_eq_infinity_iff.mp second
    rw [beq_iff, unpack_of_isInf infinite, unpack_of_isInf infinite', sign, sign']
    cases s <;> rfl

/-- Numbers that stand for the same are equal as doubles, however they are written. -/
theorem number_beq_of_quantity? (value : v.number? = some x) (other : c.number? = some y)
    (same : v.quantity? = c.quantity?) (number : v.quantity? ≠ none) : (x == y) = true := by
  cases v with
  | int i =>
    obtain rfl := Option.some.inj value
    cases c with
    | int j =>
      obtain rfl := Option.some.inj other
      have values := Quantity.rational.inj (Option.some.inj same)
      rw [show i.toInt = j.toInt by exact_mod_cast values]
      exact beq_self (isNaN_ofInt _)
    | float z =>
      obtain rfl := Option.some.inj other
      exact ofInt_beq_of_quantity? same.symm
    | _ => cases other
  | float z =>
    obtain rfl := Option.some.inj value
    cases c with
    | int j =>
      obtain rfl := Option.some.inj other
      rw [BEq.comm]
      exact ofInt_beq_of_quantity? same
    | float w =>
      obtain rfl := Option.some.inj other
      exact beq_of_quantity? same number
    | _ => cases other
  | _ => cases value

theorem isNaN_iff_quantity? (value : v.number? = some x) : x.isNaN = true ↔ v.quantity? = none := by
  cases v with
  | int i =>
    obtain rfl := Option.some.inj value
    rw [isNaN_ofInt]
    exact ⟨nofun, nofun⟩
  | float z =>
    obtain rfl := Option.some.inj value
    exact quantity?_eq_none_iff.symm
  | _ => cases value

theorem isInf_of_quantity? {s : Sign} (value : v.number? = some x)
    (infinite : v.quantity? = some (.infinity s)) : x.isInf = true := by
  cases v with
  | int i => cases infinite
  | float z =>
    obtain rfl := Option.some.inj value
    exact (quantity?_eq_infinity_iff.mp infinite).2.1
  | _ => cases value

end Scalar

namespace Node

variable {v c : Scalar} {x y : Float}

theorem satisfies_number (value : v.number? = some x) (case : c.number? = some y) :
    (scalar v).satisfies (scalar c) = isClose x y := by
  simp only [satisfies, number?, scalar?, Option.bind_some, value, case, Option.any_some]

/-- Whether numbers match does not depend on which one is the case. Numbers that stand for the same
match, and what is not a number matches nothing. But an infinity matches every number. -/
theorem numbers_match {v c : Scalar} (value : v.isNumeric = true) (case : c.isNumeric = true) :
    (scalar v).satisfies (scalar c) = (scalar c).satisfies (scalar v) ∧
    (v.quantity? = c.quantity? → v.quantity? ≠ none → (scalar v).satisfies (scalar c) = true) ∧
    (v.quantity? = none ∨ c.quantity? = none → (scalar v).satisfies (scalar c) = false) ∧
    ∀ q r, v.quantity? = some q → c.quantity? = some r →
      (∃ s, q = .infinity s ∨ r = .infinity s) → (scalar v).satisfies (scalar c) = true := by
  obtain ⟨x, value⟩ := Option.isSome_iff_exists.mp value
  obtain ⟨y, case⟩ := Option.isSome_iff_exists.mp case
  rw [satisfies_number value case, satisfies_number case value]
  refine ⟨isClose_comm x y, ?_, ?_, ?_⟩
  · exact fun same number => isClose_of_beq (Scalar.number_beq_of_quantity? value case same number)
  · intro none
    rw [← Scalar.isNaN_iff_quantity? value, ← Scalar.isNaN_iff_quantity? case] at none
    exact isClose_of_isNaN none
  · rintro q r first second ⟨s, rfl | rfl⟩
    · refine isClose_of_isInf (Scalar.isInf_of_quantity? value first) ?_
      rw [← Bool.not_eq_true, Scalar.isNaN_iff_quantity? case, second]
      exact nofun
    · rw [isClose_comm]
      refine isClose_of_isInf (Scalar.isInf_of_quantity? case second) ?_
      rw [← Bool.not_eq_true, Scalar.isNaN_iff_quantity? value, first]
      exact nofun

/-- The value of a positive double is computed from its parts. -/
theorem quantity?_of_parts {x : Float} {m : Nat} {e : Int}
    (parts : x.isNaN = false ∧ x.isInf = false ∧ x.toBits >>> 63 ≠ 1 ∧
      (Binary.ofFloat x).mantissa = m ∧ (Binary.ofFloat x).exponent = e) :
    (Scalar.float x).quantity? = some (.rational (m * 2 ^ e)) := by
  obtain ⟨real, bounded, above, rfl, rfl⟩ := parts
  refine Scalar.quantity?_eq_rational_iff.mpr ⟨real, bounded, ?_⟩
  rw [signedValue, signOf, if_neg above]
  rfl

theorem numbers_match_three :
    (Scalar.int 3).isNumeric = true ∧ (Scalar.float 3).isNumeric = true ∧
      (Scalar.int 3).quantity? = (Scalar.float 3).quantity? ∧
      (scalar (.int 3)).satisfies (scalar (.float 3)) = true ∧
      (scalar (.float 3)).satisfies (scalar (.int 3)) = true := by
  have same : (Scalar.int 3).quantity? = (Scalar.float 3).quantity? := by
    rw [quantity?_of_parts (m := 3 * 2 ^ 51) (e := -51) (by decide), Scalar.quantity?,
      show (3 : Int64).toInt = 3 from rfl]
    norm_num
  obtain ⟨both, equal, -⟩ := @numbers_match (.int 3) (.float 3) rfl rfl
  have matching := equal same nofun
  exact ⟨rfl, rfl, same, matching, both ▸ matching⟩

/-- The infinite double. -/
def boundless : Float := 1.0 / 0.0

/-- An infinity makes the tolerance infinite, so that a number far from it is close to it. -/
theorem infinity_matches_one :
    (Scalar.float boundless).quantity? = some (.infinity .positive) ∧
      (Scalar.float 1).quantity? = some (.rational 1) ∧
      (scalar (.float boundless)).satisfies (scalar (.float 1)) = true := by
  refine ⟨?_, ?_, rfl⟩
  · have real : boundless.isNaN = false := rfl
    have infinite : boundless.isInf = true := rfl
    have above : boundless.toBits >>> 63 ≠ 1 := by decide
    exact Scalar.quantity?_eq_infinity_iff.mpr ⟨real, infinite, if_neg above⟩
  · rw [quantity?_of_parts (m := 2 ^ 52) (e := -52) (by decide)]
    norm_num

end Node

end ArenaVariations
