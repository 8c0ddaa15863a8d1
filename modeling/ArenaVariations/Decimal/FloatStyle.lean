import ArenaVariations.Decimal.Shortest

/-!
# Writing doubles as YAML numbers

Both float formats of the library print the fewest digits that read back. They differ in a
`FloatStyle`: which numbers are written positionally, and how a tie between two shortest decimals
is broken. A number that is written positionally keeps a fraction (`1.0`, not `1`), so that it
reads back as a float. Text of a decimal is a list of characters until the last step.
-/

namespace ArenaVariations

/-- How doubles are written. A number `0.ddd… * 10 ^ point` is written positionally when its
point lies between `least` and `greatest`, and with an exponent otherwise. -/
structure FloatStyle where
  least : Int
  greatest : Int
  tie : Tie

namespace Decimal

/-- `12.5`, `0.001` or `300.0`: the digits around their point. -/
def positional (d : Decimal) : String :=
  let digits := Nat.toDigits 10 d.digits
  let point := d.point
  if point ≤ 0 then
    "0." ++ String.ofList (List.replicate (-point).toNat '0' ++ digits)
  else
    let whole := digits.take point.toNat
    let fraction := digits.drop point.toNat
    String.ofList (whole ++ List.replicate (point.toNat - digits.length) '0') ++ "."
      ++ (if fraction.isEmpty then "0" else String.ofList fraction)

/-- `1.5e20` or `3e-7`: one digit before the point, none after it if there is only one. -/
def scientific (d : Decimal) : String :=
  let digits := Nat.toDigits 10 d.digits
  let fraction := digits.drop 1
  String.ofList (digits.take 1)
    ++ (if fraction.isEmpty then "" else "." ++ String.ofList fraction)
    ++ "e" ++ toString (d.point - 1)

end Decimal

namespace FloatStyle

/-- Template files write numbers from `0.0001` to below `10 ^ 16` positionally. -/
def template : FloatStyle := ⟨-3, 16, .awayFromZero⟩

/-- Excerpts in error messages write numbers from `0.00001` to below `10 ^ 16` positionally. -/
def excerpt : FloatStyle := ⟨-4, 16, .toEven⟩

/-- The text of a finite double's magnitude. -/
def magnitude (style : FloatStyle) (x : Float) : String :=
  let binary := Binary.ofFloat x
  if binary.mantissa = 0 then "0.0"
  else
    let d := binary.shortest style.tie
    if style.least ≤ d.point ∧ d.point ≤ style.greatest then d.positional else d.scientific

/-- The text of a double. -/
def write (style : FloatStyle) (x : Float) : String :=
  if x.isNaN then ".nan"
  else
    let negative := x.toBits >>> 63 = 1
    let sign := if negative then "-" else ""
    if x.isInf then sign ++ ".inf" else sign ++ style.magnitude x

end FloatStyle

end ArenaVariations
