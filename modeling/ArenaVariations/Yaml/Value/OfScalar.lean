import ArenaVariations.Decimal.Reading
import ArenaVariations.Yaml.Token.Basic
import ArenaVariations.Yaml.Value.Basic

/-!
# Types of scalars

A plain scalar is null, a boolean, an integer, a double or text, tried in this order. Integers are
decimal, or have a base given by `0x`, `0o` or `0b`. Two or more digits that start with a zero are
text. An integer that does not fit 64 bits but fits 128 is refused; a larger one is a double if it
is written in decimal digits.
-/

namespace ArenaVariations.Yaml

/-- The words for null. -/
def isNullWord (cs : List Char) : Bool :=
  ["null", "Null", "NULL", "~"].any fun word => cs = word.toList

/-- The boolean that a word stands for. -/
def boolOfWord? (cs : List Char) : Option Bool :=
  if ["true", "True", "TRUE"].any fun word => cs = word.toList then some true
  else if ["false", "False", "FALSE"].any fun word => cs = word.toList then some false
  else none

/-- The characters after an optional sign. -/
def dropSign : List Char → List Char
  | '+' :: rest | '-' :: rest => rest
  | cs => cs

/-- Digits with a leading zero, perhaps after a sign, are text and no number. -/
def isPaddedDigits (cs : List Char) : Bool :=
  match dropSign cs with
  | '0' :: c :: rest => (c :: rest).all Char.isDigit
  | _ => false

/-- Whether a character is a digit in a base. -/
def isDigitIn (base : Nat) (c : Char) : Bool :=
  (c.isDigit || c.isAlpha) && natOfDigits.digitValue c < base

/-- A natural number in a base: at least one digit. -/
def natIn? (base : Nat) (cs : List Char) : Option Nat :=
  if !cs.isEmpty && cs.all (isDigitIn base) then some (natOfDigits base cs) else none

/-- A natural number with its base in front of it. -/
def prefixedNat? : List Char → Option Nat
  | '0' :: 'x' :: rest => natIn? 16 rest
  | '0' :: 'o' :: rest => natIn? 8 rest
  | '0' :: 'b' :: rest => natIn? 2 rest
  | _ => none

/-- The integer that a scalar spells, whatever its size. -/
def intOf? (cs : List Char) : Option Int :=
  let (negative, digits) : Bool × List Char := match cs with
    | '-' :: rest => (true, rest)
    | '+' :: rest => (false, rest)
    | _ => (false, cs)
  let magnitude? := match prefixedNat? digits with
    | some n => some n
    | none => if isPaddedDigits cs then none else natIn? 10 digits
  magnitude?.map fun n => if negative then -(n : Int) else n

/-- Whether an integer is a signed or an unsigned word of 64 bits. -/
def fitsWord (i : Int) : Bool :=
  -Int.pow 2 63 ≤ i && i < Int.pow 2 64

/-- Whether an integer is a signed or an unsigned word of 128 bits. -/
def fitsDoubleWord (i : Int) : Bool :=
  -Int.pow 2 127 ≤ i && i < Int.pow 2 128

/-- The double that a scalar spells: a named one, or a decimal number that is not too large. -/
def floatOf? (cs : List Char) : Option Float :=
  let signless : List Char := match cs with
    | '+' :: rest => rest
    | _ => cs
  if [".inf", ".Inf", ".INF"].any fun word => signless = word.toList then some (1.0 / 0.0)
  else if ["-.inf", "-.Inf", "-.INF"].any fun word => cs = word.toList then some (-1.0 / 0.0)
  else if [".nan", ".NaN", ".NAN"].any fun word => cs = word.toList then some (0.0 / 0.0)
  else if cs.head? = some '+' ∧ signless.head? = some '-' then none
  else (floatOfChars? signless).bind fun x => if x.isFinite then some x else none

namespace Value

/-- The value of an integer scalar: `none` if the scalar is no integer of at most 128 bits, and a
refusal, `some none`, if the integer does not fit 64 bits. -/
def ofInt? (cs : List Char) : Option (Option Value) :=
  match intOf? cs with
  | none => none
  | some i =>
    if fitsWord i then some (some (int i))
    else if fitsDoubleWord i then some none
    else none

/-- The value of a plain scalar without a type of its own, unless it is refused. -/
def ofPlain? (cs : List Char) : Option Value :=
  if cs.isEmpty || isNullWord cs then some null
  else match boolOfWord? cs with
  | some b => some (bool b)
  | none =>
    match ofInt? cs with
    | some value? => value?
    | none =>
      match if isPaddedDigits cs then none else floatOf? cs with
      | some x => some (float x)
      | none => some (text (String.ofList cs))

/-- The types that a tag can force on a scalar. -/
inductive ScalarType where
  | null
  | bool
  | int
  | float
  | other
deriving Repr, DecidableEq

/-- The type that a tag without an application's meaning forces on a scalar. -/
def ScalarType.ofTag (tag : TagChars) : ScalarType :=
  if tag = "tag:yaml.org,2002:null".toList.map some then .null
  else if tag = "tag:yaml.org,2002:bool".toList.map some then .bool
  else if tag = "tag:yaml.org,2002:int".toList.map some then .int
  else if tag = "tag:yaml.org,2002:float".toList.map some then .float
  else .other

/-- The value of a scalar of a given type, unless it is no scalar of this type. Under any other
tag a scalar is text. -/
def ofTyped? (type : ScalarType) (cs : List Char) : Option Value :=
  match type with
  | .null => if isNullWord cs then some null else none
  | .bool => (boolOfWord? cs).map bool
  | .int => (ofInt? cs).join
  | .float => (floatOf? cs).map float
  | .other => some (text (String.ofList cs))

/-- The value of a scalar without a tag: only plain scalars have types. -/
def ofUntagged? (plain : Bool) (cs : List Char) : Option Value :=
  if plain then ofPlain? cs else some (text (String.ofList cs))

end Value

end ArenaVariations.Yaml
