import ArenaVariations.Error.Basic
import ArenaVariations.Expansion.Rule

/-!
# Counting variations

The number of variations is the product of what the tags of a template contribute, and is capped
at the largest number of 128 bits. An explanation lists the factors of this product with the tags
that they come from; the tags inside of a tag are part of its factor.
-/

namespace ArenaVariations

/-- The largest count; a count that reaches it stands for any number from there on. -/
def countLimit : Nat := Nat.pow 2 128 - 1

namespace Node

mutual

/-- The number of variations that a tree describes, up to the limit. -/
def count : Node → Nat
  | scalar _ | interval _ | tagged _ | conditional _ | labelRule _ | placeholder _ => 1
  | container _ children => countAll 1 children
  | choice options => min countLimit options.length
  | labelledChoice options => min countLimit options.length
  | palette amount => amount.toNat
  | scaled _ scales _ => min countLimit scales.length
  | repetition _ value => value.count
  | restriction amount _ => amount.toNat

/-- Multiply a number with the counts of trees, up to the limit. -/
def countAll (product : Nat) : List Node → Nat
  | [] => product
  | n :: ns => countAll (min countLimit (product * n.count)) ns

end

/-- What a tag contributes to a count, as explanations show it. -/
def factor (n : Node) : String :=
  s!"{n.count}#{n.rule.name}"

mutual

/-- The factors of a tree's count, in the order in which their tags stand, such as
`6#ProcList x 5#ProcColor`. A variation that still has placeholders has no factors. -/
def breakdown : Node → Except Error String
  | scalar _ | interval _ | tagged _ | conditional _ | labelRule _ => return ""
  | container _ children => do
    let parts ← breakdowns children
    return " x ".intercalate (parts.filter fun part => !part.isEmpty)
  | n@(choice _) | n@(labelledChoice _) | n@(palette _) | n@(scaled ..) | n@(repetition ..)
  | n@(restriction ..) => return n.factor
  | placeholder _ => throw (.internal .placeholderExplained)

/-- The factors of the counts of trees. -/
def breakdowns : List Node → Except Error (List String)
  | [] => return []
  | n :: ns => return (← n.breakdown) :: (← breakdowns ns)

end

/-- Explain the count of a tree. -/
def explain (n : Node) : Except Error String := do
  let breakdown ← n.breakdown
  return if breakdown.isEmpty then "No variations" else breakdown

end Node

end ArenaVariations
