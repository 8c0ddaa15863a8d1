import ArenaVariations.Proofs.Decimal.Nearest
import ArenaVariations.Proofs.Decimal.Text
import ArenaVariations.Yaml.Value.OfScalar

/-!
# Doubles read back

A double is written as a decimal that it covers, so reading the text gives it back:
`FloatStyle.floatOf?_write`. Decimals that read back are covered, and the exact value that is taken
if no short decimal was found is covered as well. Seventeen digits suffice, but nothing here needs
this: that a number has fewer than 900 characters follows from the range of doubles.
-/

namespace ArenaVariations

theorem zpow_mul_pow_toNat {b : ℚ} (nonzero : b ≠ 0) (i : Int) :
    b ^ i * b ^ (-i).toNat = b ^ i.toNat := by
  rw [← zpow_natCast, ← zpow_natCast, ← zpow_add₀ nonzero]
  congr 1
  omega

namespace Binary

/-- Both sides of a comparison, without fractions. -/
theorem scaled_eq (a n : Nat) (i j : Int) :
    ∃ k : ℚ, 0 < k ∧
      ((a * Nat.pow 10 i.toNat * Nat.pow 2 (-j).toNat : Nat) : ℚ) = a * 10 ^ i * k ∧
      ((n * Nat.pow 2 j.toNat * Nat.pow 10 (-i).toNat : Nat) : ℚ) = n * 2 ^ j * k := by
  have ten := zpow_mul_pow_toNat (b := 10) (by norm_num) i
  have two := zpow_mul_pow_toNat (b := 2) (by norm_num) j
  refine ⟨10 ^ (-i).toNat * 2 ^ (-j).toNat, by positivity, ?_, ?_⟩
  · simp only [Nat.pow_eq]
    push_cast
    rw [← ten]
    ring
  · simp only [Nat.pow_eq]
    push_cast
    rw [← two]
    ring

variable {a n : Nat} {i j : Int}

theorem compareScaled_eq_lt : compareScaled a i n j = .lt ↔ (a * 10 ^ i : ℚ) < n * 2 ^ j := by
  obtain ⟨k, positive, left, right⟩ := scaled_eq a n i j
  rw [compareScaled, Nat.compare_eq_lt, ← Nat.cast_lt (α := ℚ), left, right,
    mul_lt_mul_iff_left₀ positive]

theorem compareScaled_eq_gt : compareScaled a i n j = .gt ↔ (n * 2 ^ j : ℚ) < a * 10 ^ i := by
  obtain ⟨k, positive, left, right⟩ := scaled_eq a n i j
  rw [compareScaled, Nat.compare_eq_gt, ← Nat.cast_lt (α := ℚ), left, right,
    mul_lt_mul_iff_left₀ positive]

theorem compareScaled_eq_eq : compareScaled a i n j = .eq ↔ (n * 2 ^ j : ℚ) = a * 10 ^ i := by
  obtain ⟨k, positive, left, right⟩ := scaled_eq a n i j
  rw [compareScaled, Nat.compare_eq_eq, ← Nat.cast_inj (R := ℚ), left, right,
    mul_left_inj' positive.ne', eq_comm]

variable {x : Binary} {d : Decimal}

/-- The decimals that read back are those that the double covers. -/
theorem covers_of_readsBack (positive : 0 < x.mantissa) (back : x.readsBack d = true) :
    x.Covers d.value := by
  have lower : ((if x.narrowBelow then 4 * x.mantissa - 1 else 4 * x.mantissa - 2 : Nat) : ℚ) =
      4 * x.mantissa - if x.narrowBelow then 1 else 2 := by
    split
    · rw [Nat.cast_sub (by omega)]
      norm_num
    · rw [Nat.cast_sub (by omega)]
      norm_num
  simp only [readsBack, Bool.decide_and, Bool.decide_or, Bool.and_eq_true, Bool.or_eq_true,
    decide_eq_true_eq, compareScaled_eq_gt, compareScaled_eq_lt, compareScaled_eq_eq] at back
  rw [lower] at back
  obtain ⟨below, above⟩ := back
  refine ⟨below, ?_⟩
  rw [upper, Decimal.value]
  simpa [eq_comm] using above

theorem value_exact (x : Binary) : x.exact.value = x.value := by
  rw [exact]
  split
  case isTrue whole =>
    have power : (2 : ℚ) ^ x.exponent = 2 ^ x.exponent.toNat := by
      rw [← zpow_natCast, Int.toNat_of_nonneg whole]
    rw [Decimal.value, value, power, Nat.pow_eq]
    push_cast
    rw [mul_one]
  case isFalse fraction =>
    have five : (5 : ℚ) ^ (-x.exponent).toNat = (5 ^ x.exponent)⁻¹ := by
      rw [← zpow_natCast, ← zpow_neg, Int.toNat_of_nonneg (by omega)]
    have nonzero : (5 : ℚ) ^ x.exponent ≠ 0 := zpow_ne_zero _ (by norm_num)
    have ten : (10 : ℚ) ^ x.exponent = 5 ^ x.exponent * 2 ^ x.exponent := by
      rw [← mul_zpow]
      norm_num
    rw [Decimal.value, value, Nat.pow_eq]
    push_cast
    rw [five, ten]
    field_simp

theorem value_stripZeros (fuel : Nat) (d : Decimal) :
    (Decimal.stripZeros fuel d).value = d.value := by
  induction fuel generalizing d with
  | zero => rfl
  | succ fuel ih =>
    rw [Decimal.stripZeros]
    split
    case isTrue zero =>
      have digits : (d.digits : ℚ) = (d.digits / 10 : Nat) * 10 := by
        exact_mod_cast (Nat.div_mul_cancel (Nat.dvd_of_mod_eq_zero zero.2)).symm
      rw [ih, Decimal.value, Decimal.value, zpow_add_one₀ (by norm_num), digits]
      dsimp only
      ring
    case isFalse => rfl

/-- What is taken from a grid reads back. -/
theorem readsBack_of_onGrid? {tie : Tie} {unit : Int} (h : x.onGrid? tie unit = some d) :
    x.readsBack d = true := by
  simp only [onGrid?] at h
  split at h
  case h_1 below above =>
    cases h
    split
    · exact below
    · exact above
  case h_2 below _ => cases h; exact below
  case h_3 _ above => cases h; exact above
  case h_4 => cases h

/-- The shortest decimal of a double is covered by it. -/
theorem covers_shortest (positive : 0 < x.mantissa) (tie : Tie) :
    x.Covers (x.shortest tie).value := by
  rw [shortest, Decimal.normalize, value_stripZeros]
  cases found : (List.range 17).findSome? fun n : Nat => x.onGrid? tie (x.scale - 1 - n) with
  | none => exact (value_exact x).symm ▸ covers_value x
  | some d =>
    obtain ⟨n, -, onGrid⟩ := List.exists_of_findSome?_eq_some found
    exact covers_of_readsBack positive (readsBack_of_onGrid? onGrid)

end Binary

namespace Decimal

theorem Spells.value_eq {d : Decimal} {whole fraction : List Char} {exponent : Int}
    (h : d.Spells whole fraction exponent) :
    (⟨natOfDigits 10 (whole ++ fraction), exponent - fraction.length⟩ : Decimal).value =
      d.value := by
  obtain ⟨zeros, digits, shifted⟩ := h.value
  rw [Decimal.value, Decimal.value, digits, shifted, zpow_sub₀ (by norm_num), zpow_natCast]
  push_cast
  field_simp

theorem takeWhile_digits {cs more : List Char} (digits : ∀ c ∈ cs, c.isDigit = true)
    (ends : ∀ c ∈ more.head?, c.isDigit = false) :
    (cs ++ more).takeWhile Char.isDigit = cs ∧ (cs ++ more).dropWhile Char.isDigit = more := by
  have none_more : more.takeWhile Char.isDigit = [] ∧ more.dropWhile Char.isDigit = more := by
    cases more with
    | nil => exact ⟨rfl, rfl⟩
    | cons c more =>
      have := ends c rfl
      exact ⟨List.takeWhile_cons_of_neg (by simp [this]),
        List.dropWhile_cons_of_neg (by simp [this])⟩
  rw [List.takeWhile_append_of_pos digits, List.dropWhile_append_of_pos digits, none_more.1,
    none_more.2, List.append_nil]
  exact ⟨rfl, rfl⟩

/-- The exponent of a number. -/
def exponentText (exponent : Int) : List Char :=
  'e' :: (toString exponent).toList

theorem exponentOfChars?_exponentText (exponent : Int) :
    exponentOfChars? (exponentText exponent) = some exponent := by
  have numeral := isNumeral_toDigits exponent.natAbs
  have digits : (Nat.toDigits 10 exponent.natAbs).all Char.isDigit = true :=
    List.all_eq_true.mpr numeral.2
  have number := natOfDigits_toDigits exponent.natAbs
  rw [exponentText, toList_toString_int]
  rcases Int.lt_or_le exponent 0 with negative | positive
  · rw [if_pos negative, List.cons_append, List.nil_append]
    simp only [exponentOfChars?, true_or, if_true, ne_eq, numeral.1, not_false_eq_true, digits,
      and_self, number, Option.some.injEq]
    omega
  · rw [if_neg (by omega), List.nil_append]
    obtain ⟨first, rest, split⟩ := List.exists_cons_of_ne_nil numeral.1
    have digit := numeral.2 first (split ▸ List.mem_cons_self)
    rw [split] at digits number ⊢
    have unsigned : first ≠ '-' ∧ first ≠ '+' := by
      constructor <;> rintro rfl <;> cases digit
    simp [exponentOfChars?, unsigned, digits, number, positive]

/-- A number is read from its digits and its exponent, if there is a fraction. -/
theorem ofChars?_fraction {whole fraction rest : List Char} {exponent : Int}
    (numeral : IsNumeral whole) (digits : ∀ c ∈ fraction, c.isDigit = true)
    (ends : ∀ c ∈ rest.head?, c.isDigit = false)
    (read : exponentOfChars? rest = some exponent) :
    ofChars? (whole ++ '.' :: (fraction ++ rest)) =
      some ⟨natOfDigits 10 (whole ++ fraction), exponent - fraction.length⟩ := by
  have point : ∀ c ∈ ('.' :: (fraction ++ rest)).head?, c.isDigit = false := by
    rintro c ⟨⟩
    rfl
  obtain ⟨taken, dropped⟩ := takeWhile_digits numeral.2 point
  obtain ⟨takenFraction, droppedFraction⟩ := takeWhile_digits digits ends
  simp [ofChars?, taken, dropped, takenFraction, droppedFraction, numeral.1, read]

/-- A number is read from its digits and its exponent, if there is no fraction. -/
theorem ofChars?_whole {whole rest : List Char} {exponent : Int} (numeral : IsNumeral whole)
    (ends : ∀ c ∈ rest.head?, c.isDigit = false ∧ c ≠ '.')
    (read : exponentOfChars? rest = some exponent) :
    ofChars? (whole ++ rest) = some ⟨natOfDigits 10 whole, exponent⟩ := by
  have noDigit : ∀ c ∈ rest.head?, c.isDigit = false := fun c mem => (ends c mem).1
  obtain ⟨taken, dropped⟩ := takeWhile_digits numeral.2 noDigit
  rw [ofChars?, taken, dropped]
  cases rest with
  | nil => simp [numeral.1, read]
  | cons c rest =>
    have := (ends c rfl).2
    simp [numeral.1, read, this]

/-- A decimal that is written is read as one of the same value. -/
theorem ofChars?_positional (d : Decimal) :
    ∃ read, ofChars? d.positional.toList = some read ∧ read.value = d.value := by
  obtain ⟨whole, fraction, text, -, spells⟩ := positional_toList d
  refine ⟨_, ?_, spells.value_eq⟩
  rw [text]
  have noMore : ∀ c ∈ ([] : List Char).head?, c.isDigit = false := nofun
  simpa using ofChars?_fraction spells.numeral spells.digits noMore rfl

theorem ofChars?_scientific (d : Decimal) :
    ∃ read, ofChars? d.scientific.toList = some read ∧ read.value = d.value := by
  obtain ⟨first, fraction, exponent, text, spells⟩ := scientific_toList d
  have ends : ∀ c ∈ (exponentText exponent).head?, c.isDigit = false ∧ c ≠ '.' := by
    rintro c ⟨⟩
    exact ⟨rfl, by decide⟩
  have read := exponentOfChars?_exponentText exponent
  refine ⟨_, ?_, spells.value_eq⟩
  rw [text]
  split
  case isTrue none =>
    subst none
    rw [List.append_nil, List.length_nil, Nat.cast_zero, sub_zero]
    exact ofChars?_whole spells.numeral ends read
  case isFalse =>
    exact ofChars?_fraction spells.numeral spells.digits (fun c mem => (ends c mem).1) read

end Decimal

/-- The text of the magnitude of a double: a digit first, and a point or an exponent later. -/
structure IsFraction (cs : List Char) : Prop where
  first : ∃ c rest, cs = c :: rest ∧ c.isDigit = true ∧ ∃ mark ∈ rest, mark = '.' ∨ mark = 'e'
  all : ∀ c ∈ cs, c.isDigit = true ∨ c = '.' ∨ c = 'e' ∨ c = '-'

theorem forall_mem_toString_int (i : Int) :
    ∀ c ∈ (toString i).toList, c.isDigit = true ∨ c = '-' := by
  intro c mem
  rw [toList_toString_int] at mem
  obtain sign | digit := List.mem_append.mp mem
  · right
    split at sign
    · exact List.mem_singleton.mp sign
    · cases sign
  · exact .inl ((isNumeral_toDigits _).2 c digit)

theorem Decimal.isFraction_positional (d : Decimal) : IsFraction d.positional.toList := by
  obtain ⟨whole, fraction, text, -, spells⟩ := positional_toList d
  obtain ⟨first, rest, rfl⟩ := List.exists_cons_of_ne_nil spells.numeral.1
  rw [text]
  refine ⟨⟨first, rest ++ '.' :: fraction, rfl, spells.numeral.2 first List.mem_cons_self, '.',
    by simp, .inl rfl⟩, fun c mem => ?_⟩
  obtain mem | mem := List.mem_append.mp mem
  · exact .inl (spells.numeral.2 c mem)
  · obtain rfl | mem := List.mem_cons.mp mem
    · exact .inr (.inl rfl)
    · exact .inl (spells.digits c mem)

theorem Decimal.isFraction_scientific (d : Decimal) : IsFraction d.scientific.toList := by
  obtain ⟨first, fraction, exponent, text, spells⟩ := scientific_toList d
  rw [text]
  refine ⟨⟨first, _, rfl, spells.numeral.2 first List.mem_cons_self, 'e', by simp, .inr rfl⟩,
    fun c mem => ?_⟩
  simp only [List.cons_append, List.mem_cons, List.mem_append] at mem
  obtain rfl | mem | rfl | mem := mem
  · exact .inl (spells.numeral.2 c List.mem_cons_self)
  · split at mem
    · cases mem
    · obtain rfl | mem := List.mem_cons.mp mem
      · exact .inr (.inl rfl)
      · exact .inl (spells.digits c mem)
  · exact .inr (.inr (.inl rfl))
  · exact (forall_mem_toString_int exponent c mem).imp_right fun eq => .inr (.inr eq)

theorem FloatStyle.isFraction_magnitude (style : FloatStyle) (x : Float) :
    IsFraction (style.magnitude x).toList := by
  rw [FloatStyle.magnitude]
  dsimp only
  split
  · exact ⟨⟨'0', ['.', '0'], rfl, rfl, '.', by decide, .inl rfl⟩, forall_mem_of_all (by decide)⟩
  · split
    · exact Decimal.isFraction_positional _
    · exact Decimal.isFraction_scientific _

open Float.Model Float.Model.UnpackedFloat

theorem neg_eq {x y : Float} {u : UnpackedFloat} (unpacked : y.toModel.unpack = u)
    (packed : x.toModel = .pack u.neg) : -y = x := by
  have same : (-y).toModel = x.toModel := by
    rw [packed, ← unpacked]
    rfl
  exact congrArg Float.ofModel same

theorem Decimal.toFloat_of_digits_eq_zero {d : Decimal} (zero : d.digits = 0) :
    d.toFloat.toModel = .pack (.zero .positive) := by
  rw [Decimal.toFloat, if_pos (.inl zero)]
  rfl

theorem signOf_eq (x : Float) :
    signOf x = if x.toBits >>> 63 = 1 then .negative else .positive := rfl

/-- A double is its magnitude, or the negation of it, as its sign says. -/
theorem eq_signed {x y : Float} {u : Sign → UnpackedFloat}
    (negated : (u .positive).neg = u .negative) (packed : x.toModel = .pack (u (signOf x)))
    (magnitude : y.toModel = .pack (u .positive)) (unpacked : y.toModel.unpack = u .positive) :
    x = if x.toBits >>> 63 = 1 then -y else y := by
  rw [signOf_eq] at packed
  split
  case isTrue negative =>
    rw [if_pos negative, ← negated] at packed
    exact (neg_eq unpacked packed).symm
  case isFalse positive =>
    rw [if_neg positive, ← magnitude] at packed
    exact congrArg Float.ofModel packed

namespace FloatStyle

variable (style : FloatStyle) {x : Float}

/-- The text of a finite double is read as its magnitude. -/
theorem ofChars?_magnitude (real : x.isNaN = false) (bounded : x.isInf = false) :
    ∃ d, Decimal.ofChars? (style.magnitude x).toList = some d ∧
      x = if x.toBits >>> 63 = 1 then -d.toFloat else d.toFloat := by
  rw [magnitude]
  dsimp only
  split
  case isTrue zero =>
    have read : (⟨0, -1⟩ : Decimal).toFloat.toModel = _ :=
      Decimal.toFloat_of_digits_eq_zero rfl
    refine ⟨⟨0, -1⟩, by decide, eq_signed (u := .zero) rfl ?_ read ?_⟩
    · exact toModel_eq_pack_zero real bounded zero
    · rw [read]
      rfl
  case isFalse nonzero =>
    obtain ⟨proper, packed⟩ := toModel_eq_pack_finite real bounded nonzero
    have covered := Binary.covers_shortest proper.positive style.tie
    have spelled : ∀ d : Decimal, d.value = ((Binary.ofFloat x).shortest style.tie).value →
        x = if x.toBits >>> 63 = 1 then -d.toFloat else d.toFloat := by
      intro d same
      have read := (same ▸ covered : (Binary.ofFloat x).Covers d.value).toModel_toFloat proper
      refine eq_signed (u := fun s => .finite s _ _ proper.positive) rfl packed read ?_
      rw [read, proper.unpack_pack]
    split
    · obtain ⟨d, read, same⟩ := Decimal.ofChars?_positional ((Binary.ofFloat x).shortest style.tie)
      exact ⟨d, read, spelled d same⟩
    · obtain ⟨d, read, same⟩ := Decimal.ofChars?_scientific ((Binary.ofFloat x).shortest style.tie)
      exact ⟨d, read, spelled d same⟩

open Yaml

/-- The text of a finite double: an optional sign and a fraction. -/
theorem write_of_finite (real : x.isNaN = false) (bounded : x.isInf = false) :
    (style.write x).toList =
      (if x.toBits >>> 63 = 1 then ['-'] else []) ++ (style.magnitude x).toList := by
  rw [write, if_neg (by rw [real]; exact Bool.false_ne_true)]
  dsimp only
  rw [if_neg (by simp [bounded])]
  split <;> simp

/-- The text of an infinite double. -/
theorem write_of_infinite (real : x.isNaN = false) (infinite : x.isInf = true) :
    (style.write x).toList =
      (if x.toBits >>> 63 = 1 then ['-'] else []) ++ ['.', 'i', 'n', 'f'] := by
  rw [write, if_neg (by rw [real]; exact Bool.false_ne_true)]
  dsimp only
  rw [if_pos infinite]
  split <;> rfl

theorem eq_of_infinite (infinite : x.isInf = true) :
    x = if x.toBits >>> 63 = 1 then -1.0 / 0.0 else 1.0 / 0.0 := by
  have packed := toModel_eq_pack x
  have isInf : x.isInf = x.toModel.unpack.isInf := rfl
  have shape := unpacked x
  generalize x.toModel.unpack = u at packed shape isInf
  rw [isInf] at infinite
  cases shape with
  | nan nan => cases infinite
  | zero => cases infinite
  | finite => cases infinite
  | infinity =>
    rw [signOf_eq] at packed
    split
    case isTrue negative =>
      rw [if_pos negative] at packed
      refine congrArg Float.ofModel (packed.trans ?_)
      rfl
    case isFalse positive =>
      rw [if_neg positive] at packed
      refine congrArg Float.ofModel (packed.trans ?_)
      rfl

/-- A fraction that is read as a double, perhaps after a sign. -/
theorem floatOf?_of_isFraction {cs : List Char} (fraction : IsFraction cs) {d : Decimal}
    (read : Decimal.ofChars? cs = some d) (negative : Prop) [Decidable negative] :
    floatOf? ((if negative then ['-'] else []) ++ cs) =
      let x := if negative then -d.toFloat else d.toFloat
      if x.isFinite then some x else none := by
  obtain ⟨⟨c, rest, rfl, digit, -⟩, -⟩ := fraction
  have plus : c ≠ '+' := by rintro rfl; cases digit
  have minus : c ≠ '-' := by rintro rfl; cases digit
  have point : c ≠ '.' := by rintro rfl; cases digit
  split
  · simp [floatOf?, floatOfChars?, read, point]
  · simp [floatOf?, floatOfChars?, read, plus, minus, point]

theorem isFinite_eq (real : x.isNaN = false) (bounded : x.isInf = false) : x.isFinite = true := by
  have isNaN : x.isNaN = x.toModel.unpack.isNaN := rfl
  have isInf : x.isInf = x.toModel.unpack.isInf := rfl
  have isFinite : x.isFinite = x.toModel.unpack.isFinite := rfl
  rw [isFinite]
  cases shape : x.toModel.unpack with
  | infinity => rw [isInf, shape] at bounded; cases bounded
  | notANumber => rw [isNaN, shape] at real; cases real
  | zero | finite => rfl

/-- A double is read back from its text. -/
theorem floatOf?_write (real : x.isNaN = false) : floatOf? (style.write x).toList = some x := by
  cases infinite : x.isInf with
  | true =>
    have exact := eq_of_infinite infinite
    rw [write_of_infinite style real infinite]
    split at exact
    case isTrue negative =>
      rw [if_pos negative, exact]
      rfl
    case isFalse positive =>
      rw [if_neg positive, exact]
      rfl
  | false =>
    obtain ⟨d, read, exact⟩ := style.ofChars?_magnitude real infinite
    rw [write_of_finite style real infinite,
      floatOf?_of_isFraction (style.isFraction_magnitude x) read]
    dsimp only
    rw [← exact, if_pos (isFinite_eq real infinite)]

end FloatStyle

namespace Binary

variable {x : Binary} {d : Decimal}

/-- The powers of two and five that make up doubles, and powers of ten above them. -/
theorem powers_lt : 2 ^ 1074 < 10 ^ 324 ∧ 2 ^ 53 * 2 ^ 971 < 10 ^ 800 ∧
    2 ^ 53 * 5 ^ 1074 < 10 ^ 800 ∧ 2 ^ 1024 * 10 ^ 350 < 10 ^ 800 := by
  decide +kernel

theorem Proper.scale_ge (proper : x.Proper) : -330 ≤ x.scale := by
  rw [scale]
  dsimp only
  split
  · omega
  · have least : (-x.exponent).toNat ≤ 1074 := by
      have := proper.least
      omega
    have short : Decimal.length ((Nat.pow 2 (-x.exponent).toNat - 1) / x.mantissa) ≤ 324 := by
      have power : 2 ^ (-x.exponent).toNat ≤ 2 ^ 1074 := pow_le_pow_right₀ (by decide) least
      have small : 2 ^ 1074 < 10 ^ 324 := powers_lt.1
      refine (Decimal.length_le_iff (by decide)).mpr ?_
      exact ((Nat.div_le_self _ _).trans (Nat.sub_le _ _)).trans_lt (power.trans_lt small)
    omega

theorem exponent_of_onGrid? {tie : Tie} {unit : Int} (h : x.onGrid? tie unit = some d) :
    d.exponent = unit := by
  simp only [onGrid?] at h
  split at h <;> cases h
  · split <;> rfl
  · rfl
  · rfl

theorem digits_stripZeros (fuel : Nat) (d : Decimal) :
    (Decimal.stripZeros fuel d).digits ≤ d.digits := by
  induction fuel generalizing d with
  | zero => exact le_rfl
  | succ fuel ih =>
    rw [Decimal.stripZeros]
    split
    · exact (ih _).trans (Nat.div_le_self _ _)
    · exact le_rfl

/-- The shortest decimal of a double has no more digits than the longest double. -/
theorem Proper.digits_shortest (proper : x.Proper) (tie : Tie) :
    (x.shortest tie).digits < 10 ^ 800 := by
  rw [shortest, Decimal.normalize]
  refine (digits_stripZeros _ _).trans_lt ?_
  have bounded := proper.bounded
  cases found : (List.range 17).findSome? fun n : Nat => x.onGrid? tie (x.scale - 1 - n) with
  | none =>
    have greatest : x.exponent.toNat ≤ 971 := by
      have := proper.greatest
      omega
    have least : (-x.exponent).toNat ≤ 1074 := by
      have := proper.least
      omega
    simp only [Option.getD_none, exact, Nat.pow_eq]
    split
    · have small : 2 ^ 53 * 2 ^ 971 < 10 ^ 800 := powers_lt.2.1
      have power : 2 ^ x.exponent.toNat ≤ 2 ^ 971 := pow_le_pow_right₀ (by decide) greatest
      exact lt_of_le_of_lt (Nat.mul_le_mul bounded.le power) small
    · have small : 2 ^ 53 * 5 ^ 1074 < 10 ^ 800 := powers_lt.2.2.1
      have power : 5 ^ (-x.exponent).toNat ≤ 5 ^ 1074 := pow_le_pow_right₀ (by decide) least
      exact lt_of_le_of_lt (Nat.mul_le_mul bounded.le power) small
  | some d =>
    obtain ⟨n, mem, onGrid⟩ := List.exists_of_findSome?_eq_some found
    have few := List.mem_range.mp mem
    have scale := proper.scale_ge
    have covered := covers_of_readsBack proper.positive (readsBack_of_onGrid? onGrid)
    have upper := covered.le_upper.trans proper.upper_le
    rw [Decimal.value, exponent_of_onGrid? onGrid] at upper
    have unit : (10 : ℚ) ^ (-350 : ℤ) ≤ 10 ^ (x.scale - 1 - n) :=
      Decimal.ten_zpow_mono (by omega)
    have small : 2 ^ 1024 * 10 ^ 350 < 10 ^ 800 := powers_lt.2.2.2
    have product : (d.digits : ℚ) * 10 ^ (-350 : ℤ) ≤ 2 ^ (1024 : ℤ) :=
      (mul_le_mul_of_nonneg_left unit (Nat.cast_nonneg _)).trans upper
    have cleared : (d.digits : ℚ) ≤ 2 ^ 1024 * 10 ^ 350 := by
      rw [zpow_neg, ← div_eq_mul_inv, div_le_iff₀ (by positivity)] at product
      exact_mod_cast product
    have : d.digits ≤ 2 ^ 1024 * 10 ^ 350 := by exact_mod_cast cleared
    exact this.trans_lt small

end Binary

namespace Decimal

variable {d : Decimal}

theorem length_positional (small : length d.digits ≤ 800) (least : -3 ≤ d.point)
    (greatest : d.point ≤ 16) : d.positional.toList.length ≤ 850 := by
  have digits : (Nat.toDigits 10 d.digits).length ≤ 800 := small
  rw [positional]
  dsimp only
  split
  · simp
    omega
  · split <;> simp
    · omega
    · omega

theorem length_scientific (small : length d.digits ≤ 800) (least : -340 ≤ d.point)
    (greatest : d.point ≤ 320) : d.scientific.toList.length ≤ 850 := by
  have digits : (Nat.toDigits 10 d.digits).length ≤ 800 := small
  have exponent : (toString (d.point - 1)).toList.length ≤ 5 := by
    have numeral : (Nat.toDigits 10 (d.point - 1).natAbs).length ≤ 4 :=
      (length_le_iff (by decide)).mpr (by omega)
    rw [toList_toString_int]
    split <;> simp <;> omega
  rw [scientific]
  simp only [String.toList_append, List.length_append]
  split <;> simp at exponent ⊢ <;> omega

end Decimal

theorem FloatStyle.length_write {x : Float} (real : x.isNaN = false) :
    (FloatStyle.template.write x).toList.length ≤ 900 := by
  cases infinite : x.isInf with
  | true =>
    rw [write_of_infinite _ real infinite]
    split <;> decide
  | false =>
    have magnitude : (FloatStyle.template.magnitude x).toList.length ≤ 850 := by
      rw [FloatStyle.magnitude]
      dsimp only
      split
      · decide
      case isFalse nonzero =>
        obtain ⟨proper, -⟩ := toModel_eq_pack_finite real infinite nonzero
        have covered := Binary.covers_shortest proper.positive FloatStyle.template.tie
        obtain ⟨-, least, greatest⟩ := covered.point_bounds proper
        have small := (Decimal.length_le_iff (by decide)).mpr
          (proper.digits_shortest FloatStyle.template.tie)
        split
        case isTrue near => exact Decimal.length_positional small near.1 near.2
        case isFalse => exact Decimal.length_scientific small least greatest
    rw [write_of_finite _ real infinite]
    split <;> simp at magnitude ⊢ <;> omega

end ArenaVariations
