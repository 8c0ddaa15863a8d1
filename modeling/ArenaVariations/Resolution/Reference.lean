import ArenaVariations.Decimal.Reading
import ArenaVariations.Error.Basic

/-!
# References

A reference such as `goal.sizes.0.x` names a value of a variation. Its first segment is the id of
a record, the others lead from there to the value. A segment of digits is a position in a list,
an integer key of a mapping, or one of the two bounds of a range; any other segment is a text key
or the name of a field. When a step leads to a placeholder, the value that it stands for takes its
place.
-/

namespace ArenaVariations

namespace Reference

/-- The parts of a reference between its dots. -/
def segments (reference : String) : List String :=
  (reference.toList.splitOn '.').map String.ofList

/-- The position that a segment of digits stands for. -/
def position? (segment : String) : Option Nat :=
  let cs := segment.toList
  if !cs.isEmpty && cs.all Char.isDigit then some (natOfDigits 10 cs) else none

end Reference

namespace Node

mutual

/-- The first record with an id, each record before its fields. Only containers are searched. -/
def findRecord? (id : String) : Node → Option Node
  | n@(container form children) =>
    match form with
    | .record _ own _ => if own = some id then some n else findRecordIn? id children
    | _ => findRecordIn? id children
  | _ => none

/-- The first record with an id in a list of trees. -/
def findRecordIn? (id : String) : List Node → Option Node
  | [] => none
  | n :: ns => (n.findRecord? id).or (findRecordIn? id ns)

end

/-- The value that a segment leads to. -/
def step? (n : Node) (segment : String) : Option Node :=
  match Reference.position? segment, n with
  | some i, container .sequence items => items[i]?
  | some i, container (.mapping _) _ =>
    if i < Nat.pow 2 63 then n.valueAt? (.int (Int64.ofNat i)) else none
  | some 0, interval range => some (scalar range.min)
  | some 1, interval range => some (scalar range.max)
  | none, container (.mapping _) _ => n.valueNamed? segment
  | none, container (.record ..) _ => n.field? segment
  | _, _ => none

/-- Follow segments from a node to the value that they lead to, if there is one. -/
def walk? (force : Conditional Node → Except Error Node) (n : Node) :
    List String → Except Error (Option Node)
  | [] => return some n
  | segment :: rest =>
    match n.step? segment with
    | none => return none
    | some (placeholder source) => do (← force source).walk? force rest
    | some next => next.walk? force rest

/-- The value of a tree that a reference names. -/
def resolveReference (root : Node) (force : Conditional Node → Except Error Node)
    (reference : String) : Except Error Node := do
  let segments := Reference.segments reference
  let id := segments.headD ""
  let some start := root.findRecord? id | throw (.unresolved (.unknownId id reference) none)
  let some value ← start.walk? force segments.tail
    | throw (.unresolved (.noSuchValue reference id) none)
  return value

end Node

end ArenaVariations
