import ArenaVariations.Decimal.Basic

/-!
# Reading decimals

`Decimal.ofChars?` reads digits with an optional point and an optional exponent; at least one
digit must stand before the exponent, on either side of the point. `Decimal.toFloat` is the
double nearest to a decimal, a tie going to the even neighbour.
-/

namespace ArenaVariations

/-- The number that a list of digits spells in a base. A letter counts from ten on. -/
def natOfDigits (base : Nat) (cs : List Char) : Nat :=
  cs.foldl (fun n c => base * n + digitValue c) 0
where
  /-- The value of one digit. -/
  digitValue (c : Char) : Nat :=
    if c.isDigit then c.toNat - '0'.toNat
    else if 'a' ≤ c ∧ c ≤ 'z' then c.toNat - 'a'.toNat + 10
    else c.toNat - 'A'.toNat + 10

namespace Decimal

/-- The exponent after a mantissa: nothing, or a letter, an optional sign and digits. -/
def exponentOfChars? : List Char → Option Int
  | [] => some 0
  | letter :: rest =>
    if letter = 'e' ∨ letter = 'E' then
      let (negative, digits) : Bool × List Char := match rest with
        | '-' :: ds => (true, ds)
        | '+' :: ds => (false, ds)
        | ds => (false, ds)
      if digits ≠ [] ∧ digits.all Char.isDigit then
        let n : Int := natOfDigits 10 digits
        some (if negative then -n else n)
      else none
    else none

/-- Read an unsigned decimal number. -/
def ofChars? (cs : List Char) : Option Decimal :=
  let whole := cs.takeWhile Char.isDigit
  let afterWhole := cs.dropWhile Char.isDigit
  let (fraction, rest) : List Char × List Char := match afterWhole with
    | '.' :: more => (more.takeWhile Char.isDigit, more.dropWhile Char.isDigit)
    | other => ([], other)
  if whole = [] ∧ fraction = [] then none
  else
    (exponentOfChars? rest).map fun e =>
      ⟨natOfDigits 10 (whole ++ fraction), e - fraction.length⟩

/-- The nearest double. Decimals far outside the range of doubles are infinite or zero without
any power of ten being computed. -/
def toFloat (d : Decimal) : Float :=
  if d.digits = 0 ∨ d.point < -340 then 0.0
  else if 320 < d.point then 1.0 / 0.0
  else Float.ofScientific d.digits (d.exponent < 0) d.exponent.natAbs

end Decimal

/-- Read a decimal number with an optional minus sign as the nearest double. -/
def floatOfChars? (cs : List Char) : Option Float :=
  match cs with
  | '-' :: rest => (Decimal.ofChars? rest).map fun d => -d.toFloat
  | _ => (Decimal.ofChars? cs).map Decimal.toFloat

end ArenaVariations
