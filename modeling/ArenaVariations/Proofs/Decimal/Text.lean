import ArenaVariations.Decimal.FloatStyle
import ArenaVariations.Decimal.Reading
import Mathlib

/-!
# The text of numbers

What the text of an integer or a double looks like: a sign, numerals around a point, and an
exponent. `Decimal.positional` and `Decimal.scientific` spell the digits of their decimal, perhaps
followed by zeros that its exponent makes up for.
-/

namespace ArenaVariations

/-- A decidable property of all elements of a list is checked on each of them. -/
theorem forall_mem_of_all {α : Type} {p : α → Prop} [DecidablePred p] {as : List α}
    (h : as.all (fun a => decide (p a)) = true) : ∀ a ∈ as, p a :=
  fun a mem => of_decide_eq_true (List.all_eq_true.mp h a mem)

/-- At least one character, and nothing but decimal digits. -/
def IsNumeral (cs : List Char) : Prop :=
  cs ≠ [] ∧ ∀ c ∈ cs, c.isDigit = true

theorem isNumeral_toDigits (n : Nat) : IsNumeral (Nat.toDigits 10 n) :=
  ⟨Nat.toDigits_ne_nil, fun _ mem => Nat.isDigit_of_mem_toDigits (by decide) (by decide) mem⟩

theorem natOfDigits_eq_ofDigitChars {cs : List Char} (digits : ∀ c ∈ cs, c.isDigit = true) :
    natOfDigits 10 cs = Nat.ofDigitChars 10 cs 0 := by
  have step : ∀ init, cs.foldl (fun n c => 10 * n + natOfDigits.digitValue c) init =
      Nat.ofDigitChars 10 cs init := by
    induction cs with
    | nil => exact fun init => rfl
    | cons c cs ih =>
      obtain ⟨first, rest⟩ := List.forall_mem_cons.mp digits
      intro init
      rw [List.foldl_cons, ih rest, Nat.ofDigitChars_cons, natOfDigits.digitValue, if_pos first]
  exact step 0

theorem natOfDigits_toDigits (n : Nat) : natOfDigits 10 (Nat.toDigits 10 n) = n := by
  rw [natOfDigits_eq_ofDigitChars (isNumeral_toDigits n).2, Nat.ofDigitChars_ten_toDigits]

/-- Zeros in front of digits change nothing. -/
theorem natOfDigits_zeros_append {cs : List Char} (digits : ∀ c ∈ cs, c.isDigit = true)
    (n : Nat) : natOfDigits 10 (List.replicate n '0' ++ cs) = natOfDigits 10 cs := by
  have all : ∀ c ∈ List.replicate n '0' ++ cs, c.isDigit = true := by
    intro c mem
    obtain zero | mem := List.mem_append.mp mem
    · obtain rfl := List.eq_of_mem_replicate zero
      rfl
    · exact digits c mem
  rw [natOfDigits_eq_ofDigitChars all, natOfDigits_eq_ofDigitChars digits,
    Nat.ofDigitChars_append, Nat.ofDigitChars_replicate_zero, Nat.mul_zero]

/-- Each zero behind digits multiplies by ten. -/
theorem natOfDigits_append_zeros {cs : List Char} (digits : ∀ c ∈ cs, c.isDigit = true)
    (n : Nat) : natOfDigits 10 (cs ++ List.replicate n '0') = natOfDigits 10 cs * 10 ^ n := by
  have all : ∀ c ∈ cs ++ List.replicate n '0', c.isDigit = true := by
    intro c mem
    obtain mem | zero := List.mem_append.mp mem
    · exact digits c mem
    · obtain rfl := List.eq_of_mem_replicate zero
      rfl
  rw [natOfDigits_eq_ofDigitChars all, natOfDigits_eq_ofDigitChars digits,
    Nat.ofDigitChars_append, Nat.ofDigitChars_replicate_zero, Nat.mul_comm]

/-- The text of an integer: an optional sign and a numeral. -/
theorem toList_toString_int (i : Int) :
    (toString i).toList = (if i < 0 then ['-'] else []) ++ Nat.toDigits 10 i.natAbs := by
  rw [Int.toString_eq_repr, Int.repr_eq_if]
  rcases Int.lt_or_le i 0 with negative | positive
  · rw [if_neg (by omega), if_pos negative]
    have : (-i).toNat = i.natAbs := by omega
    simp [this]
  · rw [if_pos positive, if_neg (by omega)]
    have : i.toNat = i.natAbs := by omega
    simp [this]

namespace Decimal

/-- The digits around a point, with an exponent behind them, spell a decimal, perhaps with zeros
that it does not have. -/
structure Spells (d : Decimal) (whole fraction : List Char) (exponent : Int) : Prop where
  numeral : IsNumeral whole
  digits : ∀ c ∈ fraction, c.isDigit = true
  value : ∃ zeros : Nat, natOfDigits 10 (whole ++ fraction) = d.digits * 10 ^ zeros ∧
    exponent - fraction.length = d.exponent - zeros

theorem positional_toList (d : Decimal) :
    ∃ whole fraction, d.positional.toList = whole ++ '.' :: fraction ∧ fraction ≠ [] ∧
      d.Spells whole fraction 0 := by
  have numeral := isNumeral_toDigits d.digits
  have value := natOfDigits_toDigits d.digits
  have point : d.point = (Nat.toDigits 10 d.digits).length + d.exponent := rfl
  unfold positional
  dsimp only
  generalize Nat.toDigits 10 d.digits = digits at numeral value point ⊢
  split
  case isTrue small =>
    refine ⟨['0'], List.replicate (-d.point).toNat '0' ++ digits, by simp, by simp [numeral.1],
      ⟨by simp, by simp⟩, ?_, 0, ?_, ?_⟩
    · intro c mem
      obtain zero | mem := List.mem_append.mp mem
      · obtain rfl := List.eq_of_mem_replicate zero
        rfl
      · exact numeral.2 c mem
    · have front := natOfDigits_zeros_append numeral.2 ((-d.point).toNat + 1)
      rw [List.replicate_succ, List.cons_append] at front
      simpa [value] using front
    · simp only [List.length_append, List.length_replicate]
      omega
  case isFalse large =>
    rcases Nat.lt_or_ge d.point.toNat digits.length with inside | beyond
    · have some_whole : digits.take d.point.toNat ≠ [] := by
        simp only [ne_eq, List.take_eq_nil_iff, numeral.1, or_false]
        omega
      have some_fraction : digits.drop d.point.toNat ≠ [] := by
        simpa [List.drop_eq_nil_iff] using inside
      refine ⟨digits.take d.point.toNat, digits.drop d.point.toNat, ?_, some_fraction,
        ⟨some_whole, fun c mem => numeral.2 c (List.mem_of_mem_take mem)⟩,
        fun c mem => numeral.2 c (List.mem_of_mem_drop mem), 0, ?_, ?_⟩
      · have none_added : d.point.toNat - digits.length = 0 := by omega
        simp [none_added, some_fraction]
      · rw [List.take_append_drop, value, Nat.pow_zero, Nat.mul_one]
      · rw [List.length_drop]
        omega
    · have zeros : d.exponent = (d.point.toNat - digits.length : Nat) := by omega
      rw [List.take_of_length_le beyond, List.drop_eq_nil_of_le beyond]
      generalize d.point.toNat - digits.length = amount at zeros ⊢
      refine ⟨digits ++ List.replicate amount '0', ['0'], ?_, by simp, ⟨by simp [numeral.1], ?_⟩,
        by simp, amount + 1, ?_, ?_⟩
      · simp
      · intro c mem
        obtain mem | zero := List.mem_append.mp mem
        · exact numeral.2 c mem
        · obtain rfl := List.eq_of_mem_replicate zero
          rfl
      · rw [List.append_assoc, ← List.replicate_succ', natOfDigits_append_zeros numeral.2, value]
      · simp only [List.length_singleton]
        omega

theorem scientific_toList (d : Decimal) :
    ∃ first fraction exponent, d.scientific.toList =
        first :: (if fraction = [] then [] else '.' :: fraction) ++ 'e' ::
          (toString exponent).toList ∧
      d.Spells [first] fraction exponent := by
  have numeral := isNumeral_toDigits d.digits
  have value := natOfDigits_toDigits d.digits
  have point : d.point = (Nat.toDigits 10 d.digits).length + d.exponent := rfl
  unfold scientific
  dsimp only
  generalize Nat.toDigits 10 d.digits = digits at numeral value point ⊢
  cases digits with
  | nil => exact absurd rfl numeral.1
  | cons first fraction =>
    obtain ⟨head, tail⟩ := List.forall_mem_cons.mp numeral.2
    refine ⟨first, fraction, d.point - 1, ?_, ⟨by simp, by simpa using head⟩, tail, 0, ?_, ?_⟩
    · cases fraction <;> simp
    · simp [value]
    · simp only [List.length_cons] at point
      omega

end Decimal

theorem not_isAlpha_of_isDigit {c : Char} (h : c.isDigit = true) : c.isAlpha = false := by
  simp only [Char.isDigit, Char.isAlpha, Char.isUpper, Char.isLower] at *
  simp only [ge_iff_le, Bool.and_eq_true, decide_eq_true_eq, UInt32.le_iff_toNat_le,
    Bool.or_eq_false_iff, Bool.and_eq_false_iff, decide_eq_false_iff_not] at *
  simp at *
  omega

/-- The text does not start with a letter. -/
def StartsNoWord (text : String) : Prop :=
  ∀ c ∈ text.toList.head?, c.isAlpha = false

theorem IsNumeral.head {cs : List Char} (h : IsNumeral cs) (more : List Char) :
    ∀ c ∈ (cs ++ more).head?, c.isAlpha = false := by
  obtain ⟨first, rest, rfl⟩ := List.exists_cons_of_ne_nil h.1
  rintro c ⟨⟩
  exact not_isAlpha_of_isDigit (h.2 first List.mem_cons_self)

theorem startsNoWord_int (i : Int) : StartsNoWord (toString i) := by
  rw [StartsNoWord, toList_toString_int]
  split
  · rintro c ⟨⟩
    rfl
  · simpa only [List.nil_append, List.append_nil] using (isNumeral_toDigits i.natAbs).head []

theorem FloatStyle.startsNoWord_magnitude (style : FloatStyle) (x : Float) :
    StartsNoWord (style.magnitude x) := by
  rw [FloatStyle.magnitude, StartsNoWord]
  dsimp only
  split
  · rintro c ⟨⟩
    rfl
  · split
    · obtain ⟨whole, fraction, spelled, -, spells⟩ := Decimal.positional_toList
        ((Binary.ofFloat x).shortest style.tie)
      rw [spelled]
      exact spells.numeral.head _
    · obtain ⟨first, fraction, exponent, spelled, spells⟩ := Decimal.scientific_toList
        ((Binary.ofFloat x).shortest style.tie)
      rw [spelled]
      exact spells.numeral.head _

theorem FloatStyle.startsNoWord_write (style : FloatStyle) (x : Float) :
    StartsNoWord (style.write x) := by
  rw [FloatStyle.write]
  split
  · rintro c ⟨⟩
    rfl
  · dsimp only
    split
    · split <;> rintro c ⟨⟩ <;> rfl
    · split
      · simp only [StartsNoWord, String.toList_append]
        rintro c ⟨⟩
        rfl
      · simpa only [String.empty_append] using style.startsNoWord_magnitude x

end ArenaVariations
