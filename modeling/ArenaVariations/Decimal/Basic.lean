/-!
# Decimal numbers and the reals that round to a binary one

A `Decimal` is a natural number times a power of ten. A `Binary` is a finite non-negative
double, taken apart into an integer and a power of two. `Binary.readsBack` says which decimals
a correctly rounding reader turns into a given double: those between the midpoints to its two
neighbours, the midpoints themselves exactly when the integer is even.
-/

namespace ArenaVariations

/-- The number `digits * 10 ^ exponent`. -/
structure Decimal where
  digits : Nat
  exponent : Int
deriving Repr, DecidableEq

namespace Decimal

/-- How many decimal digits a natural number is written with; zero has one. -/
def length (n : Nat) : Nat :=
  (Nat.toDigits 10 n).length

/-- Move zeros at the end of the digits into the exponent, at most `fuel` of them. -/
def stripZeros : Nat → Decimal → Decimal
  | 0, d => d
  | fuel + 1, d =>
    if d.digits ≠ 0 ∧ d.digits % 10 = 0 then stripZeros fuel ⟨d.digits / 10, d.exponent + 1⟩
    else d

/-- The same number with as few digits as possible. -/
def normalize (d : Decimal) : Decimal :=
  stripZeros (length d.digits) d

/-- Where the decimal point stands: the number is `0.ddd… * 10 ^ point`. -/
def point (d : Decimal) : Int :=
  length d.digits + d.exponent

end Decimal

/-- The finite non-negative double `mantissa * 2 ^ exponent`. -/
structure Binary where
  mantissa : Nat
  exponent : Int
  /-- The gap to the neighbour below is half of the gap to the neighbour above. -/
  narrowBelow : Bool
deriving Repr, DecidableEq

namespace Binary

/-- Take the magnitude of a finite double apart. -/
def ofFloat (x : Float) : Binary :=
  let bits := x.toBits
  let biased := ((bits >>> 52) &&& 0x7FF).toNat
  let fraction := (bits &&& 0xFFFFFFFFFFFFF).toNat
  if biased = 0 then ⟨fraction, -1074, false⟩
  else ⟨Nat.pow 2 52 + fraction, (biased : Int) - 1075, fraction = 0 ∧ 1 < biased⟩

/-- Compare `a * 10 ^ i` with `n * 2 ^ j` exactly. -/
def compareScaled (a : Nat) (i : Int) (n : Nat) (j : Int) : Ordering :=
  compare (a * Nat.pow 10 i.toNat * Nat.pow 2 (-j).toNat)
    (n * Nat.pow 2 j.toNat * Nat.pow 10 (-i).toNat)

/-- Whether a correctly rounding reader turns `d` into this double. -/
def readsBack (x : Binary) (d : Decimal) : Bool :=
  let lower := if x.narrowBelow then 4 * x.mantissa - 1 else 4 * x.mantissa - 2
  let upper := 4 * x.mantissa + 2
  let closed := x.mantissa % 2 = 0
  let atLower := compareScaled d.digits d.exponent lower (x.exponent - 2)
  let atUpper := compareScaled d.digits d.exponent upper (x.exponent - 2)
  (atLower = .gt ∨ (closed ∧ atLower = .eq)) ∧ (atUpper = .lt ∨ (closed ∧ atUpper = .eq))

/-- The greatest natural number of units `10 ^ unit` that does not exceed the double. -/
def floorUnits (x : Binary) (unit : Int) : Nat :=
  (x.mantissa * Nat.pow 2 x.exponent.toNat * Nat.pow 10 (-unit).toNat)
    / (Nat.pow 2 (-x.exponent).toNat * Nat.pow 10 unit.toNat)

end Binary

end ArenaVariations
