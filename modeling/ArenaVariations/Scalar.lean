import ArenaVariations.Decimal.FloatStyle

/-!
# Scalars and intervals

The leaves of a template: null, booleans, integers of 64 bits, doubles and text. Scalars are
compared as values, so a double that is not a number differs from itself and the two zeros are
equal; an integer is never equal to a double. An `Interval` is the closed range that a case of a
conditional may name, a `TaggedScalar` a leaf under a tag that this library does not interpret.
-/

namespace ArenaVariations

/-- A leaf of a YAML document. -/
inductive Scalar where
  | null
  | bool (value : Bool)
  | int (value : Int64)
  | float (value : Float)
  | text (value : String)
deriving Inhabited

namespace Scalar

/-- Equality of values. -/
def beq : Scalar → Scalar → Bool
  | null, null => true
  | bool a, bool b => a == b
  | int a, int b => a == b
  | float a, float b => a == b
  | text a, text b => a == b
  | _, _ => false

instance : BEq Scalar := ⟨beq⟩

/-- The numeric value as a double; large integers are rounded. -/
def number? : Scalar → Option Float
  | int i => some (Float.ofInt i.toInt)
  | float x => some x
  | _ => none

/-- Whether the scalar is an integer or a double. -/
def isNumeric (s : Scalar) : Bool :=
  s.number?.isSome

/-- The text that messages and names show: text is not quoted. -/
def display : Scalar → String
  | null => "null"
  | bool b => toString b
  | int i => toString i.toInt
  | float x => FloatStyle.template.write x
  | text s => s

end Scalar

/-- A closed range of numbers, `!R [min, max]` in a template. -/
structure Interval where
  min : Scalar
  max : Scalar
deriving Inhabited

namespace Interval

instance : BEq Interval where
  beq a b := a.min == b.min && a.max == b.max

/-- Whether a number lies in the range; the ends belong to it. -/
def contains (range : Interval) (x : Float) : Bool :=
  match range.min.number?, range.max.number? with
  | some lo, some hi => decide (lo ≤ x) && decide (x ≤ hi)
  | _, _ => false

end Interval

/-- A scalar under a tag without a meaning of its own. It is copied as it is. -/
structure TaggedScalar where
  tag : String
  value : Scalar
deriving Inhabited

instance : BEq TaggedScalar where
  beq a b := a.tag == b.tag && a.value == b.value

end ArenaVariations
