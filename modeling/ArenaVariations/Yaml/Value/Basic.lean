/-!
# YAML values

A `Value` is what a YAML document stands for: scalars have types, aliases are expanded, and only
tags with an application's meaning are left. Integers have the range of signed and unsigned words
of 64 bits. The keys of a mapping are pairwise different as values: an integer differs from a
double, the two zeros are one, and one double that is not a number is as good as another.
-/

namespace ArenaVariations.Yaml

/-- The value of a YAML node. -/
inductive Value where
  | null
  | bool (value : Bool)
  | int (value : Int)
  | float (value : Float)
  | text (value : String)
  | sequence (items : List Value)
  | mapping (entries : List (Value × Value))
  | tagged (tag : String) (value : Value)
deriving Inhabited

namespace Value

mutual

/-- Equality of values. The order of a mapping's entries does not matter. -/
def same : Value → Value → Bool
  | null, null => true
  | bool a, bool b => a == b
  | int a, int b => a == b
  | float a, float b => a == b || (a.isNaN && b.isNaN)
  | text a, text b => a == b
  | sequence xs, sequence ys => sameItems xs ys
  | mapping es, mapping fs => es.length == fs.length && entriesAmong es fs
  | tagged s x, tagged t y => s == t && x.same y
  | _, _ => false
termination_by structural v => v

/-- Equality of lists of values. -/
def sameItems : List Value → List Value → Bool
  | [], [] => true
  | x :: xs, y :: ys => x.same y && sameItems xs ys
  | _, _ => false
termination_by structural vs => vs

/-- Whether each entry of the first list occurs in the second one. -/
def entriesAmong : List (Value × Value) → List (Value × Value) → Bool
  | [], _ => true
  | e :: es, fs => entryAmong e fs && entriesAmong es fs
termination_by structural es => es

/-- Whether an entry occurs in a list. -/
def entryAmong : Value × Value → List (Value × Value) → Bool
  | (k, v), fs => fs.any fun f => k.same f.1 && v.same f.2
termination_by structural e => e

end

mutual

/-- How deeply a value is nested; a scalar has height one. -/
def height : Value → Nat
  | null | bool _ | int _ | float _ | text _ => 1
  | sequence items => heightOfItems items + 1
  | mapping entries => heightOfEntries entries + 1
  | tagged _ value => value.height + 1

/-- The greatest height of a list of values. -/
def heightOfItems : List Value → Nat
  | [] => 0
  | v :: vs => max v.height (heightOfItems vs)

/-- The greatest height of the keys and values of a mapping. -/
def heightOfEntries : List (Value × Value) → Nat
  | [] => 0
  | e :: es => max (heightOfEntry e) (heightOfEntries es)

/-- The greater height of a key and its value. -/
def heightOfEntry : Value × Value → Nat
  | (k, v) => max k.height v.height

end

/-- The value below all tags. -/
def untagged : Value → Value
  | tagged _ value => value.untagged
  | value => value

end Value

end ArenaVariations.Yaml
