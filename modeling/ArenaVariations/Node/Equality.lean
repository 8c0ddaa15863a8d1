import ArenaVariations.Node.Basic

/-!
# Equality of trees

Trees are equal when they have the same shape and equal scalars. Two placeholders are equal only
if they stand for the same conditional, whatever that conditional says; two conditionals are
compared by what they say, and their serial numbers are ignored. Since a double that is not a
number differs from itself, equality is not reflexive.
-/

namespace ArenaVariations

namespace Node

mutual

/-- Equality of trees. -/
def beq : Node → Node → Bool
  | scalar a, scalar b => a == b
  | interval a, interval b => a == b
  | tagged a, tagged b => a == b
  | container f xs, container g ys => f == g && beqList xs ys
  | choice xs, choice ys => beqList xs ys
  | labelledChoice xs, labelledChoice ys => beqLabelled xs ys
  | palette m, palette n => m == n
  | scaled a xs ls, scaled b ys ms => beqOption a b && xs == ys && ls == ms
  | repetition m x, repetition n y => m == n && x.beq y
  | restriction m x, restriction n y => m == n && x.beq y
  | conditional a, conditional b => beqConditional a b
  | labelRule a, labelRule b => beqRule a b
  | placeholder a, placeholder b => a.serial == b.serial
  | _, _ => false
termination_by structural n => n

/-- Equality of lists of trees. -/
def beqList : List Node → List Node → Bool
  | [], [] => true
  | x :: xs, y :: ys => x.beq y && beqList xs ys
  | _, _ => false
termination_by structural ns => ns

/-- Equality of lists of labelled options. -/
def beqLabelled : List (Node × String) → List (Node × String) → Bool
  | [], [] => true
  | x :: xs, y :: ys => beqPair x y && beqLabelled xs ys
  | _, _ => false
termination_by structural os => os

/-- Equality of labelled options. -/
def beqPair : Node × String → Node × String → Bool
  | (x, l), (y, m) => x.beq y && l == m
termination_by structural o => o

/-- Equality of optional trees. -/
def beqOption : Option Node → Option Node → Bool
  | none, none => true
  | some x, some y => x.beq y
  | _, _ => false
termination_by structural o => o

/-- Equality of conditions. -/
def beqCondition : Condition Node → Condition Node → Bool
  | ⟨vs, m, xs⟩, ⟨ws, n, ys⟩ => vs == ws && m == n && beqList xs ys
termination_by structural c => c

/-- Equality of what two conditionals say. -/
def beqConditional : Conditional Node → Conditional Node → Bool
  | ⟨_, c, xs, f, ls, fl⟩, ⟨_, d, ys, g, ms, gl⟩ =>
    beqCondition c d && beqList xs ys && beqOption f g && ls == ms && fl == gl
termination_by structural c => c

/-- Equality of label rules. -/
def beqRule : LabelRule Node → LabelRule Node → Bool
  | ⟨c, ls, f⟩, ⟨d, ms, g⟩ => beqCondition c d && ls == ms && f == g
termination_by structural r => r

end

instance : BEq Node := ⟨beq⟩

end Node

end ArenaVariations
