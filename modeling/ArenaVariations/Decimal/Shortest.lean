import ArenaVariations.Decimal.Basic

/-!
# The shortest decimal that reads back

Among the decimals that a correctly rounding reader turns into a given double, `Binary.shortest`
takes one with the fewest digits, and of two such the one nearer to the double. The grids with
one, two, … digits are searched in this order. If some point of a grid reads back, then so does
one of the two grid points around the double, so no more than these two are looked at.
-/

namespace ArenaVariations

/-- Which of two equally near neighbours is taken. -/
inductive Tie where
  | toEven
  | awayFromZero
deriving Repr, DecidableEq

namespace Binary

/-- The least `k` with `x < 10 ^ k`, for a positive double `x`. -/
def scale (x : Binary) : Int :=
  let whole := x.floorUnits 0
  if 0 < whole then Decimal.length whole
  else
    -- `x = mantissa / 2 ^ e` is below one; `10 ^ j * x < 1` as long as `10 ^ j` is at most this
    let inverse := (Nat.pow 2 (-x.exponent).toNat - 1) / x.mantissa
    1 - (Decimal.length inverse : Int)

/-- Whether the lower of two neighbours on a grid is taken when both read back: twice the double
is compared with the sum of the two. -/
def prefersLower (x : Binary) (tie : Tie) (below : Decimal) : Bool :=
  match compareScaled (2 * below.digits + 1) below.exponent (2 * x.mantissa) x.exponent with
  | .gt => true
  | .lt => false
  | .eq => tie = .toEven ∧ below.digits % 2 = 0

/-- The grid point taken among those with the unit `10 ^ unit`, if one reads back. -/
def onGrid? (x : Binary) (tie : Tie) (unit : Int) : Option Decimal :=
  let below : Decimal := ⟨x.floorUnits unit, unit⟩
  let above : Decimal := ⟨below.digits + 1, unit⟩
  match x.readsBack below, x.readsBack above with
  | true, true => some (if x.prefersLower tie below then below else above)
  | true, false => some below
  | false, true => some above
  | false, false => none

/-- The exact decimal value of a double. -/
def exact (x : Binary) : Decimal :=
  if 0 ≤ x.exponent then ⟨x.mantissa * Nat.pow 2 x.exponent.toNat, 0⟩
  else ⟨x.mantissa * Nat.pow 5 (-x.exponent).toNat, x.exponent⟩

/-- The shortest decimal that reads back as the double, without zeros at its end. Seventeen
digits always suffice. -/
def shortest (x : Binary) (tie : Tie) : Decimal :=
  let k := x.scale
  (((List.range 17).findSome? fun (n : Nat) =>
    x.onGrid? tie (k - 1 - (n : Int))).getD x.exact).normalize

end Binary

end ArenaVariations
