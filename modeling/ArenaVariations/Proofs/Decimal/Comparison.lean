import ArenaVariations.Proofs.Decimal.Nearest

/-!
# Comparing doubles

Doubles are compared by what their words are unpacked to, so what is said about comparisons is said
there first. Signs do not matter to magnitudes: the magnitude of a difference is the same whichever
double is taken from the other one, and of two magnitudes one is at most as large as the other.
Doubles that are the same number are equal, and so are an integer and a double.
-/

namespace ArenaVariations

open Float.Model Float.Model.UnpackedFloat

theorem unpack_pack_finite (s : Sign) (m : Nat) (e : Int) (positive : 0 < m) :
    (Float.Model.pack (.finite s m e positive)).unpack =
      if 2047 ≤ (e + 1075).toNat then .infinity s
      else ofParts s (if m.log2 = 52 then BitVec.ofNat 11 (e + 1075).toNat else 0#11)
        (BitVec.ofNat 52 m) := by
  rw [Float.Model.unpack, unpack_eq_ofParts]
  simp only [Float.Model.pack, UInt64.toBitVec_ofBitVec]
  rw [pack_finite]
  split
  case isTrue => cases s <;> rfl
  case isFalse =>
    rw [unpackSign_packComponents, unpackExponent_packComponents, unpackMantissa_packComponents,
      ofBitVec_toBitVec]

theorem unpack_pack_notANumber : (Float.Model.pack .notANumber).unpack = .notANumber := rfl

theorem unpack_pack_infinity (s : Sign) :
    (Float.Model.pack (.infinity s)).unpack = .infinity s := by
  cases s <;> rfl

theorem abs_ofParts (s : Sign) (e : BitVec 11) (m : BitVec 52) :
    (ofParts s e m).abs = ofParts .positive e m := by
  unfold ofParts
  split_ifs <;> rfl

/-- Packing rounds magnitudes without regard to signs. -/
theorem abs_unpack_pack (u : UnpackedFloat) :
    (Float.Model.pack u).unpack.abs = (Float.Model.pack u.abs).unpack := by
  cases u with
  | notANumber => rfl
  | infinity s | zero s => cases s <;> rfl
  | finite s m e positive =>
    rw [UnpackedFloat.abs, unpack_pack_finite, unpack_pack_finite]
    split
    · rfl
    · exact abs_ofParts _ _ _

/-- Packing makes no number of what is none, and the other way round. -/
theorem isNaN_unpack_pack (u : UnpackedFloat) : (Float.Model.pack u).unpack.isNaN = u.isNaN := by
  cases u with
  | notANumber => rfl
  | infinity s | zero s => cases s <;> rfl
  | finite s m e positive =>
    rw [unpack_pack_finite]
    split
    case isTrue => rfl
    case isFalse small =>
      have below : (if m.log2 = 52 then BitVec.ofNat 11 (e + 1075).toNat else 0#11) ≠ -1#11 := by
        split
        · intro top
          have value := congrArg BitVec.toNat top
          rw [BitVec.toNat_ofNat, Nat.mod_eq_of_lt (by omega)] at value
          have : (-1#11).toNat = 2047 := rfl
          omega
        · decide
      rw [ofParts, if_neg below]
      split_ifs <;> rfl

theorem unpack_abs (x : Float) : x.abs.toModel.unpack = x.toModel.unpack.abs := by
  change (Float.Model.pack x.toModel.unpack.abs).unpack = _
  rw [← abs_unpack_pack, ← toModel_eq_pack]

theorem eq_of_unpack_eq {x y : Float} (same : x.toModel.unpack = y.toModel.unpack) : x = y := by
  have words : x.toModel = y.toModel := by
    rw [toModel_eq_pack x, toModel_eq_pack y, same]
  exact congrArg Float.ofModel words

theorem abs_round (s t : Sign) (m : Nat) (e : Int) :
    (UnpackedFloat.round .binary64 s m e).abs = (UnpackedFloat.round .binary64 t m e).abs := by
  simp only [UnpackedFloat.round, UnpackedFloat.roundWithAccuracy]
  split <;> rfl

theorem abs_normalize_neg (m e : Int) :
    (UnpackedFloat.normalize .binary64 (-m) e .positive).abs =
      (UnpackedFloat.normalize .binary64 m e .positive).abs := by
  rw [UnpackedFloat.normalize, UnpackedFloat.normalize]
  rcases Int.lt_trichotomy m 0 with negative | rfl | positive
  · rw [Int.compare_eq_gt.mpr (by omega : 0 < -m), Int.compare_eq_lt.mpr negative]
    exact abs_round _ _ _ _
  · rfl
  · rw [Int.compare_eq_lt.mpr (by omega : -m < 0), Int.compare_eq_gt.mpr positive]
    rw [Int.neg_neg]
    exact abs_round _ _ _ _

/-- The magnitude of a difference is the same both ways. -/
theorem abs_unpacked_sub_comm (u v : UnpackedFloat) :
    (UnpackedFloat.sub .binary64 u v).abs = (UnpackedFloat.sub .binary64 v u).abs := by
  cases u with
  | notANumber => cases v <;> rfl
  | infinity s =>
    cases v with
    | infinity t => cases s <;> cases t <;> rfl
    | _ => rfl
  | zero s =>
    cases v with
    | zero t => cases s <;> cases t <;> rfl
    | _ => rfl
  | finite s m e first =>
    cases v with
    | finite t k f second =>
      simp only [UnpackedFloat.sub, Int.min_comm e f]
      rw [← abs_normalize_neg, Int.neg_sub]
    | _ => rfl

theorem abs_sub_comm (a b : Float) : (a - b).abs = (b - a).abs := by
  apply eq_of_unpack_eq
  rw [unpack_abs, unpack_abs]
  change (Float.Model.pack _).unpack.abs = (Float.Model.pack _).unpack.abs
  rw [abs_unpack_pack, abs_unpack_pack, abs_unpacked_sub_comm]

/-- Finite magnitudes are in order if their exponents are, or these are equal and the mantissas are
in order. -/
theorem le_finite_iff {m k : Nat} {e f : Int} (first : 0 < m) (second : 0 < k) :
    (UnpackedFloat.finite .positive m e first).le (.finite .positive k f second) = true ↔
      e < f ∨ e = f ∧ m ≤ k := by
  change ((compare e f).then (compare m k)).isLE = true ↔ _
  rcases Int.lt_trichotomy e f with lt | rfl | gt
  · simp [Int.compare_eq_lt.mpr lt, lt]
  · simp [Nat.isLE_compare]
  · simp [Int.compare_eq_gt.mpr gt, gt.le, gt.ne']

theorem abs_le_total {u v : UnpackedFloat} (first : u.isNaN = false) (second : v.isNaN = false) :
    u.abs.le v.abs = true ∨ v.abs.le u.abs = true := by
  cases u with
  | notANumber => cases first
  | infinity | zero =>
    cases v with
    | notANumber => cases second
    | _ => first | exact .inl rfl | exact .inr rfl
  | finite s m e positive =>
    cases v with
    | notANumber => cases second
    | infinity => exact .inl rfl
    | zero => exact .inr rfl
    | finite t k f positive' =>
      simp only [UnpackedFloat.abs, le_finite_iff]
      omega

theorem abs_eq_of_le_of_le {u v : UnpackedFloat} (below : u.abs.le v.abs = true)
    (above : v.abs.le u.abs = true) : u.abs = v.abs := by
  cases u with
  | notANumber => cases below
  | infinity | zero =>
    cases v with
    | infinity | zero =>
      first
      | rfl
      | exact absurd below Bool.false_ne_true
      | exact absurd above Bool.false_ne_true
    | _ =>
      first
      | exact absurd below Bool.false_ne_true
      | exact absurd above Bool.false_ne_true
  | finite s m e positive =>
    cases v with
    | finite t k f positive' =>
      simp only [UnpackedFloat.abs, le_finite_iff] at below above ⊢
      simp only [UnpackedFloat.finite.injEq, true_and]
      omega
    | _ =>
      first
      | exact absurd below Bool.false_ne_true
      | exact absurd above Bool.false_ne_true

theorem le_iff {x y : Float} : x ≤ y ↔ x.toModel.unpack.le y.toModel.unpack = true :=
  decide_eq_true_iff

/-- One of two magnitudes is the larger one. -/
theorem max_abs_comm {a b : Float} (first : a.isNaN = false) (second : b.isNaN = false) :
    max a.abs b.abs = max b.abs a.abs := by
  have le (x y : Float) : x.abs ≤ y.abs ↔ x.toModel.unpack.abs.le y.toModel.unpack.abs = true := by
    rw [le_iff, unpack_abs, unpack_abs]
  have choose (x y : Float) : max x.abs y.abs = if x.abs ≤ y.abs then y.abs else x.abs := rfl
  rw [choose, choose]
  by_cases below : a.abs ≤ b.abs <;> by_cases above : b.abs ≤ a.abs
  · rw [if_pos below, if_pos above]
    apply eq_of_unpack_eq
    rw [unpack_abs, unpack_abs]
    exact abs_eq_of_le_of_le ((le b a).mp above) ((le a b).mp below)
  · rw [if_pos below, if_neg above]
  · rw [if_neg below, if_pos above]
  · rw [le] at below above
    exact ((abs_le_total first second).elim below above).elim

theorem beq_iff {x y : Float} :
    (x == y) = true ↔ x.toModel.unpack.compare y.toModel.unpack = some .eq := by
  change (x.toModel.unpack.compare y.toModel.unpack == some .eq) = true ↔ _
  rw [beq_iff_eq]

theorem ne_nan {x : Float} (real : x.isNaN = false) : x ≠ .nan := by
  simpa [Float.isNaN_eq_decide_eq_nan] using real

theorem beq_self {x : Float} (real : x.isNaN = false) : (x == x) = true :=
  Float.beq_self_iff.mpr (ne_nan real)

namespace Binary

variable {x y : Binary}

theorem Proper.value_pos (proper : x.Proper) : 0 < x.value :=
  mul_pos (by exact_mod_cast proper.positive) (two_zpow_pos _)

/-- Doubles are different numbers, for each is what its number is rounded to. -/
theorem Proper.value_injective (first : x.Proper) (second : y.Proper) (same : x.value = y.value) :
    x.mantissa = y.mantissa ∧ x.exponent = y.exponent := by
  have itself : (x.mantissa : ℚ) / (1 : Nat) * 2 ^ x.exponent = x.value := by
    rw [Nat.cast_one, div_one, value]
  have low : x.exponent ≤ Format.binary64.targetExponent
      (totalExponent (x.mantissa / 1) x.exponent) := by
    rw [Nat.div_one, first.targetExponent]
  have here : x.Covers (x.mantissa / (1 : Nat) * 2 ^ x.exponent) :=
    itself ▸ covers_value x
  have there : y.Covers (x.mantissa / (1 : Nat) * 2 ^ x.exponent) :=
    itself ▸ same ▸ covers_value y
  have rounded := (here.roundWithAccuracy first Nat.one_pos low .positive).symm.trans
    (there.roundWithAccuracy second Nat.one_pos low .positive)
  simpa using rounded

end Binary

/-- The number that a finite double is. -/
def signedValue (x : Float) : ℚ :=
  match signOf x with
  | .negative => -(Binary.ofFloat x).value
  | .positive => (Binary.ofFloat x).value

theorem signedValue_cases (x : Float) :
    signOf x = .positive ∧ signedValue x = (Binary.ofFloat x).value ∨
      signOf x = .negative ∧ signedValue x = -(Binary.ofFloat x).value := by
  rw [signedValue]
  cases signOf x
  · exact .inr ⟨rfl, rfl⟩
  · exact .inl ⟨rfl, rfl⟩

theorem signedValue_eq_zero {x : Float} (zero : (Binary.ofFloat x).mantissa = 0) :
    signedValue x = 0 := by
  obtain ⟨-, same⟩ | ⟨-, same⟩ := signedValue_cases x <;> simp [same, Binary.value, zero]

theorem signedValue_ne_zero {x : Float} (proper : (Binary.ofFloat x).Proper) :
    signedValue x ≠ 0 := by
  have positive := proper.value_pos
  obtain ⟨-, same⟩ | ⟨-, same⟩ := signedValue_cases x
  · exact same.trans_ne positive.ne'
  · exact same.trans_ne (neg_ne_zero.mpr positive.ne')

/-- A number has one sign and one magnitude. -/
theorem signedValue_injective {x y : Float} (first : (Binary.ofFloat x).Proper)
    (second : (Binary.ofFloat y).Proper) (same : signedValue x = signedValue y) :
    signOf x = signOf y ∧ (Binary.ofFloat x).value = (Binary.ofFloat y).value := by
  have positive := first.value_pos
  have positive' := second.value_pos
  obtain ⟨sign, value⟩ | ⟨sign, value⟩ := signedValue_cases x <;>
    obtain ⟨sign', value'⟩ | ⟨sign', value'⟩ := signedValue_cases y <;>
    rw [value, value'] at same
  · exact ⟨sign.trans sign'.symm, same⟩
  · linarith
  · linarith
  · exact ⟨sign.trans sign'.symm, neg_injective same⟩

/-- Finite doubles that are the same number are equal. -/
theorem beq_of_signedValue_eq {x y : Float} (real : x.isNaN = false) (bounded : x.isInf = false)
    (real' : y.isNaN = false) (bounded' : y.isInf = false)
    (same : signedValue x = signedValue y) : (x == y) = true := by
  have itself (unpacks : x.toModel.unpack = y.toModel.unpack) : (x == y) = true :=
    eq_of_unpack_eq unpacks ▸ beq_self real
  have first := unpacked x
  have second := unpacked y
  rw [beq_iff] at itself ⊢
  generalize x.toModel.unpack = u at first itself ⊢
  generalize y.toModel.unpack = v at second itself ⊢
  cases first with
  | nan nan => rw [nan] at real; cases real
  | infinity _ infinite => rw [infinite] at bounded; cases bounded
  | zero _ _ zero =>
    rw [signedValue_eq_zero zero] at same
    cases second with
    | nan nan => rw [nan] at real'; cases real'
    | infinity _ infinite => rw [infinite] at bounded'; cases bounded'
    | zero => rfl
    | finite _ _ proper => exact absurd same.symm (signedValue_ne_zero proper)
  | finite _ _ proper =>
    cases second with
    | nan nan => rw [nan] at real'; cases real'
    | infinity _ infinite => rw [infinite] at bounded'; cases bounded'
    | zero _ _ zero =>
      exact absurd (same.trans (signedValue_eq_zero zero)) (signedValue_ne_zero proper)
    | finite _ _ proper' =>
      obtain ⟨signs, values⟩ := signedValue_injective proper proper' same
      obtain ⟨mantissas, exponents⟩ := proper.value_injective proper' values
      refine itself ?_
      rw [UnpackedFloat.finite.injEq]
      exact ⟨signs, mantissas, exponents⟩

/-- A natural number that is a double is read as this double. -/
theorem Binary.Proper.toModel_ofNat {x : Binary} (proper : x.Proper) {n : Nat} (positive : 0 < n)
    (same : x.value = n) : (Float.ofNat n).toModel =
      .pack (.finite .positive x.mantissa x.exponent proper.positive) := by
  have covered : x.Covers (n * 10 ^ (0 : ℤ)) := by
    rw [zpow_zero, mul_one, ← same]
    exact covers_value x
  exact covered.toModel_ofScientific proper positive (by norm_num) (by omega)

theorem isNaN_mul_finite {s t : Sign} {m k : Nat} {e f : Int} (first : 0 < m) (second : 0 < k) :
    (UnpackedFloat.mul .binary64 (.finite s m e first) (.finite t k f second)).isNaN = false := by
  simp only [UnpackedFloat.mul, UnpackedFloat.roundWithAccuracy]
  split <;> rfl

/-- A natural number is a number as a double. -/
theorem isNaN_ofNat (n : Nat) : (Float.ofNat n).isNaN = false := by
  obtain rfl | positive := Nat.eq_zero_or_pos n
  · rfl
  change (Float.ofNat n).toModel.unpack.isNaN = false
  by_cases small : n < 2 ^ 53
  · have proper := Binary.proper_ofNat positive small
    rw [proper.toModel_ofNat positive (Binary.value_ofNat positive small), proper.unpack_pack]
    rfl
  · have model : (Float.ofNat n).toModel = .pack (UnpackedFloat.ofScientific .binary64 n 0) := by
      change (Float.ofScientific n false 0).toModel = _
      rw [Float.ofScientific, dif_neg (fun fast => small fast.1)]
      rfl
    have bits : (0 : ℤ) ≤ 2 ^ Format.binary64.exponentBits := by positivity
    rw [model, isNaN_unpack_pack, UnpackedFloat.ofScientific, dif_neg positive.ne',
      if_neg (not_lt.mpr bits), if_neg (by omega), if_pos le_rfl]
    exact isNaN_mul_finite _ _

theorem isNaN_neg (x : Float) : (-x).isNaN = x.isNaN := by
  change (Float.Model.pack x.toModel.unpack.neg).unpack.isNaN = x.toModel.unpack.isNaN
  rw [isNaN_unpack_pack]
  cases x.toModel.unpack <;> rfl

/-- An integer is a number as a double. -/
theorem isNaN_ofInt (i : Int) : (Float.ofInt i).isNaN = false := by
  cases i with
  | ofNat n => exact isNaN_ofNat n
  | negSucc n => exact (isNaN_neg _).trans (isNaN_ofNat (n + 1))

/-- A finite double that is an integer is equal to it. -/
theorem ofInt_beq {x : Float} (real : x.isNaN = false) (bounded : x.isInf = false) {i : Int}
    (same : signedValue x = i) : (Float.ofInt i == x) = true := by
  by_cases zero : (Binary.ofFloat x).mantissa = 0
  · have none : i = 0 := by
      rw [signedValue_eq_zero zero] at same
      exact_mod_cast same.symm
    subst none
    refine beq_of_signedValue_eq (isNaN_ofInt 0) (rfl) real bounded ?_
    rw [signedValue_eq_zero zero, signedValue_eq_zero (rfl)]
  · obtain ⟨proper, packed⟩ := toModel_eq_pack_finite real bounded zero
    have positive := proper.value_pos
    have itself : (Float.ofInt i).toModel = x.toModel := by
      obtain ⟨sign, value⟩ | ⟨sign, value⟩ := signedValue_cases x <;> rw [value] at same <;>
        rw [packed, sign]
      · have above : 0 < i := by
          rw [same] at positive
          exact_mod_cast positive
        obtain ⟨n, rfl⟩ := Int.eq_ofNat_of_zero_le above.le
        exact proper.toModel_ofNat (by omega) same
      · have below : i < 0 := by
          have : (i : ℚ) < 0 := by linarith
          exact_mod_cast this
        obtain ⟨n, rfl⟩ := Int.eq_negSucc_of_lt_zero below
        have magnitude : (Binary.ofFloat x).value = (n + 1 : Nat) := by
          rw [Int.cast_negSucc] at same
          linarith
        change Float.Model.pack (Float.ofNat (n + 1)).toModel.unpack.neg = _
        rw [proper.toModel_ofNat n.succ_pos magnitude, proper.unpack_pack]
        rfl
    rw [show Float.ofInt i = x from congrArg Float.ofModel itself]
    exact beq_self real

end ArenaVariations
