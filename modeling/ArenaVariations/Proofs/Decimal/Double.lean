import ArenaVariations.Decimal.FloatStyle
import ArenaVariations.Proofs.Decimal.Rounding

/-!
# The parts of a double

A double is a word of 64 bits: a sign, an exponent and a mantissa. `Binary.ofFloat` takes the
magnitude apart, and Lean's model of doubles unpacks the word. Both give the same finite doubles,
and packing what was unpacked gives the word back.
-/

namespace ArenaVariations

open Float.Model Float.Model.UnpackedFloat

variable (b : BitVec 64)

theorem toNat_unpackMantissa :
    (@unpackMantissa .binary64 b).toNat = b.toNat % 2 ^ 52 := by
  simp [unpackMantissa, BitVec.extractLsb, BitVec.extractLsb']

theorem toNat_unpackExponent :
    (@unpackExponent .binary64 b).toNat = b.toNat / 2 ^ 52 % 2 ^ 11 := by
  simp [unpackExponent, BitVec.extractLsb, BitVec.extractLsb', Nat.shiftRight_eq_div_pow]

theorem toNat_unpackSign :
    (@unpackSign .binary64 b).toNat = b.toNat / 2 ^ 63 := by
  have := b.isLt
  simp [unpackSign, BitVec.extractLsb, BitVec.extractLsb', Nat.shiftRight_eq_div_pow]
  omega

theorem toNat_append {v w : Nat} (x : BitVec v) (y : BitVec w) :
    (x ++ y).toNat = 2 ^ w * x.toNat + y.toNat := by
  rw [BitVec.toNat_append, ← Nat.shiftLeft_add_eq_or_of_lt y.isLt, Nat.shiftLeft_eq, Nat.mul_comm]

theorem toNat_packComponents (s : Sign) (e : BitVec 11) (m : BitVec 52) :
    (packComponents .binary64 s e m).toNat =
      2 ^ 63 * s.toBitVec.toNat + 2 ^ 52 * e.toNat + m.toNat := by
  change (s.toBitVec ++ e ++ m).toNat = _
  rw [toNat_append, toNat_append]
  omega

theorem toBitVec_ofBitVec (v : BitVec 1) : (Sign.ofBitVec v).toBitVec = v := by
  revert v
  decide

theorem packComponents_unpack :
    packComponents .binary64 (Sign.ofBitVec (@unpackSign .binary64 b))
      (@unpackExponent .binary64 b) (@unpackMantissa .binary64 b) = b := by
  apply BitVec.eq_of_toNat_eq
  rw [toNat_packComponents, toBitVec_ofBitVec, toNat_unpackMantissa, toNat_unpackExponent,
    toNat_unpackSign]
  omega

/-- A double from the parts of its word. -/
def ofParts (s : Sign) (e : BitVec 11) (m : BitVec 52) : UnpackedFloat :=
  if e = -1#11 then if m = 0#52 then .infinity s else .notANumber
  else if e = 0#11 then
    if h : m = 0#52 then .zero s
    else .finite s m.toNat (-1074) (by simpa [BitVec.toNat_pos, BitVec.pos_iff_ne_zero])
  else .finite s (2 ^ 52 + m.toNat) (e.toNat - 1075) (by omega)

theorem unpack_eq_ofParts :
    UnpackedFloat.unpack .binary64 b =
      ofParts (Sign.ofBitVec (@unpackSign .binary64 b))
        (@unpackExponent .binary64 b) (@unpackMantissa .binary64 b) := by
  rw [UnpackedFloat.unpack, ofParts]
  dsimp only
  refine if_congr Iff.rfl rfl ?_
  split
  case isTrue zero =>
    split
    · rfl
    · congr 1
      simp only [zero]
      rfl
  case isFalse =>
    congr 1
    rw [toNat_append]
    rfl

theorem pack_finite (s : Sign) (m : Nat) (e : Int) (positive : 0 < m) :
    UnpackedFloat.pack .binary64 (.finite s m e positive) =
      if 2047 ≤ (e + 1075).toNat then packedInfinity .binary64 s
      else packComponents .binary64 s
        (if m.log2 = 52 then BitVec.ofNat 11 (e + 1075).toNat else 0#11) (BitVec.ofNat 52 m) := by
  have biased : (e + Format.binary64.exponentBias + Format.binary64.mantissaBitsWithoutImplicit : ℤ)
      = e + 1075 := Int.add_assoc e 1023 52
  rw [UnpackedFloat.pack]
  dsimp only
  rw [biased]
  refine if_congr (by simp) rfl ?_
  rw [apply_ite (fun exponent => packComponents .binary64 s exponent (BitVec.ofNat 52 m))]
  exact if_congr (by simp [Format.mantissaBits]) rfl rfl

/-- A word is what its parts are packed to. -/
theorem pack_ofParts (s : Sign) (e : BitVec 11) (m : BitVec 52)
    (nan : e = -1#11 → m ≠ 0#52 → packComponents .binary64 s e m = packedNaN .binary64) :
    UnpackedFloat.pack .binary64 (ofParts s e m) = packComponents .binary64 s e m := by
  rw [ofParts]
  split
  case isTrue top =>
    split
    case isTrue zero => rw [top, zero]; rfl
    case isFalse nonzero => exact (nan top nonzero).symm
  case isFalse top =>
    have small : e.toNat < 2047 := by
      have : e.toNat ≠ 2047 := fun eq => top (BitVec.eq_of_toNat_eq eq)
      have := e.isLt
      omega
    have bounded := m.isLt
    split
    case isTrue subnormal =>
      split
      case isTrue zero => rw [subnormal, zero]; rfl
      case isFalse nonzero =>
        have positive : m.toNat ≠ 0 := fun eq => nonzero (BitVec.eq_of_toNat_eq eq)
        have bits : m.toNat.log2 < 52 := (Nat.log2_lt positive).mpr bounded
        rw [pack_finite, if_neg (by decide), if_neg (by omega), subnormal, BitVec.ofNat_toNat]
        rfl
    case isFalse normal =>
      have bits : (2 ^ 52 + m.toNat).log2 = 52 :=
        (Nat.log2_eq_iff (by omega)).mpr ⟨by omega, by omega⟩
      have biased : ((e.toNat - 1075 : ℤ) + 1075).toNat = e.toNat := by omega
      rw [pack_finite, biased, if_neg (by omega), if_pos bits]
      congr 1
      · exact BitVec.eq_of_toNat_eq (by rw [BitVec.toNat_ofNat]; omega)
      · exact BitVec.eq_of_toNat_eq (by rw [BitVec.toNat_ofNat]; omega)

theorem pack_unpack (valid : Format.binary64.Valid b) :
    UnpackedFloat.pack .binary64 (UnpackedFloat.unpack .binary64 b) = b := by
  rw [unpack_eq_ofParts, pack_ofParts, packComponents_unpack]
  intro top nonzero
  rw [packComponents_unpack]
  exact valid.eq_packedNaN top nonzero

theorem toNat_biased (bits : UInt64) :
    ((bits >>> 52) &&& 0x7FF).toNat = bits.toNat / 2 ^ 52 % 2 ^ 11 := by
  rw [UInt64.toNat_and, UInt64.toNat_shiftRight]
  exact (Nat.and_two_pow_sub_one_eq_mod _ 11).trans (by rw [Nat.shiftRight_eq_div_pow]; rfl)

theorem toNat_fraction (bits : UInt64) :
    (bits &&& 0xFFFFFFFFFFFFF).toNat = bits.toNat % 2 ^ 52 := by
  rw [UInt64.toNat_and]
  exact Nat.and_two_pow_sub_one_eq_mod _ 52

theorem sign_eq (bits : UInt64) :
    Sign.ofBitVec (@unpackSign .binary64 bits.toBitVec) =
      if bits >>> 63 = 1 then .negative else .positive := by
  have top := toNat_unpackSign bits.toBitVec
  rw [UInt64.toNat_toBitVec] at top
  have shifted : (bits >>> 63).toNat = bits.toNat / 2 ^ 63 := by
    rw [UInt64.toNat_shiftRight, Nat.shiftRight_eq_div_pow]
    rfl
  have bound := bits.toNat_lt
  rw [Sign.ofBitVec]
  by_cases negative : bits >>> 63 = 1
  · have one := congrArg UInt64.toNat negative
    rw [shifted] at one
    rw [if_pos negative, if_neg]
    intro zero
    rw [zero, one] at top
    cases top
  · have zero : bits.toNat / 2 ^ 63 = 0 := by
      have : bits.toNat / 2 ^ 63 ≠ 1 := fun one =>
        negative (UInt64.toNat_inj.mp (shifted.trans one))
      omega
    rw [if_neg negative,
      if_pos (BitVec.eq_of_toNat_eq (top.trans (zero.trans BitVec.toNat_zero.symm)))]

/-- The sign that a double has, if it is a number. -/
def signOf (x : Float) : Sign :=
  if x.toBits >>> 63 = 1 then .negative else .positive

theorem toModel_eq_pack (x : Float) : x.toModel = Float.Model.pack x.toModel.unpack := by
  have packed := pack_unpack _ x.toModel.valid
  obtain ⟨⟨bits, valid⟩⟩ := x
  simp only [Float.Model.pack, Float.Model.unpack, Float.Model.mk.injEq]
  rw [packed]

/-- A double is not a number, infinite, zero, or finite as its magnitude says. -/
inductive Unpacked (x : Float) : UnpackedFloat → Prop where
  | nan (nan : x.isNaN = true) : Unpacked x .notANumber
  | infinity (real : x.isNaN = false) (infinite : x.isInf = true) :
      Unpacked x (.infinity (signOf x))
  | zero (real : x.isNaN = false) (bounded : x.isInf = false)
      (zero : (Binary.ofFloat x).mantissa = 0) : Unpacked x (.zero (signOf x))
  | finite (real : x.isNaN = false) (bounded : x.isInf = false)
      (proper : (Binary.ofFloat x).Proper) :
      Unpacked x (.finite (signOf x) (Binary.ofFloat x).mantissa (Binary.ofFloat x).exponent
        proper.positive)

/-- The parts of a word make the magnitude. -/
theorem ofFloat_eq (x : Float) :
    let e := (@unpackExponent .binary64 x.toBits.toBitVec).toNat
    let m := (@unpackMantissa .binary64 x.toBits.toBitVec).toNat
    Binary.ofFloat x = if e = 0 then ⟨m, -1074, false⟩
      else ⟨2 ^ 52 + m, e - 1075, decide (m = 0 ∧ 1 < e)⟩ := by
  simp only [Binary.ofFloat, toNat_biased, toNat_fraction, toNat_unpackExponent,
    toNat_unpackMantissa, UInt64.toNat_toBitVec]
  rfl

theorem unpacked (x : Float) : Unpacked x x.toModel.unpack := by
  have parts : x.toModel.unpack = ofParts (signOf x) _ _ :=
    (unpack_eq_ofParts x.toBits.toBitVec).trans (by rw [sign_eq]; rfl)
  have binary := ofFloat_eq x
  have isNaN : x.isNaN = x.toModel.unpack.isNaN := rfl
  have isInf : x.isInf = x.toModel.unpack.isInf := rfl
  generalize @unpackMantissa .binary64 x.toBits.toBitVec = m at *
  generalize @unpackExponent .binary64 x.toBits.toBitVec = e at *
  rw [parts] at isNaN isInf ⊢
  rw [ofParts] at *
  by_cases top : e = -1#11
  · rw [if_pos top] at *
    by_cases zero : m = 0#52
    · rw [if_pos zero] at *
      exact .infinity isNaN isInf
    · rw [if_neg zero] at *
      exact .nan isNaN
  · have small : e.toNat < 2047 := by
      have : e.toNat ≠ 2047 := fun eq => top (BitVec.eq_of_toNat_eq eq)
      have : e.toNat < 2048 := e.isLt
      omega
    have bounded : m.toNat < 2 ^ 52 := m.isLt
    rw [if_neg top] at *
    by_cases subnormal : e = 0#11
    · have none : e.toNat = 0 := by rw [subnormal]; rfl
      rw [if_pos subnormal] at *
      dsimp only at binary
      rw [if_pos none] at binary
      by_cases zero : m = 0#52
      · rw [dif_pos zero] at *
        refine .zero isNaN isInf ?_
        rw [binary, zero]
        rfl
      · have nonzero : m.toNat ≠ 0 := fun eq => zero (BitVec.eq_of_toNat_eq eq)
        have proper : (Binary.ofFloat x).Proper := by
          rw [binary]
          exact ⟨by dsimp only; omega, by dsimp only; omega, .inr rfl, le_rfl, by norm_num,
            by simp⟩
        rw [dif_neg zero] at *
        convert Unpacked.finite isNaN isInf proper using 1
        simp [binary]
    · have some_exponent : e.toNat ≠ 0 := fun eq => subnormal (BitVec.eq_of_toNat_eq eq)
      rw [if_neg subnormal] at *
      dsimp only at binary
      rw [if_neg some_exponent] at binary
      have proper : (Binary.ofFloat x).Proper := by
        rw [binary]
        exact ⟨by dsimp only; omega, by dsimp only; omega, .inl (by dsimp only; omega),
          by dsimp only; omega, by dsimp only; omega,
          by simp only [decide_eq_true_eq]; omega⟩
      convert Unpacked.finite isNaN isInf proper using 1
      simp [binary]

/-- A finite double is packed from its magnitude and its sign. -/
theorem toModel_eq_pack_finite {x : Float} (real : x.isNaN = false) (bounded : x.isInf = false)
    (nonzero : (Binary.ofFloat x).mantissa ≠ 0) :
    ∃ proper : (Binary.ofFloat x).Proper, x.toModel = .pack (.finite (signOf x)
      (Binary.ofFloat x).mantissa (Binary.ofFloat x).exponent proper.positive) := by
  have packed := toModel_eq_pack x
  have shape := unpacked x
  generalize x.toModel.unpack = u at packed shape
  cases shape with
  | nan nan => rw [nan] at real; cases real
  | infinity _ infinite => rw [infinite] at bounded; cases bounded
  | zero _ _ zero => exact absurd zero nonzero
  | finite _ _ proper => exact ⟨proper, packed⟩

theorem toModel_eq_pack_zero {x : Float} (real : x.isNaN = false) (bounded : x.isInf = false)
    (zero : (Binary.ofFloat x).mantissa = 0) : x.toModel = .pack (.zero (signOf x)) := by
  have packed := toModel_eq_pack x
  have shape := unpacked x
  generalize x.toModel.unpack = u at packed shape
  cases shape with
  | nan nan => rw [nan] at real; cases real
  | infinity _ infinite => rw [infinite] at bounded; cases bounded
  | zero => exact packed
  | finite _ _ proper => exact absurd zero proper.positive.ne'

end ArenaVariations
