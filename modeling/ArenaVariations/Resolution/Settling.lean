import ArenaVariations.Resolution.Conditional

/-!
# Settling variations

Expansion leaves a placeholder for every conditional. `Variation.settle` fills them in, one after
the other in the order in which they stand, each by looking at the variation as it is by then, and
then applies the label rules of the document. A failure ends it; what was filled in before stays.
-/

namespace ArenaVariations

namespace Node

mutual

/-- The places of the placeholders of a tree, as child positions from the root, each with its
conditional. -/
def openPlaces : Node → List (List Nat × Conditional Node)
  | placeholder source => [([], source)]
  | container _ children => openPlacesFrom 0 children
  | _ => []

/-- The places of the placeholders of children, the first of which has the given position. -/
def openPlacesFrom (position : Nat) : List Node → List (List Nat × Conditional Node)
  | [] => []
  | n :: ns =>
    n.openPlaces.map (fun place => (position :: place.1, place.2))
      ++ openPlacesFrom (position + 1) ns

end

/-- The part of a tree at a place. -/
def at? (n : Node) (path : List Nat) : Option Node :=
  match path, n with
  | [], n => some n
  | position :: path, container _ children =>
    children[position]?.bind fun child => child.at? path
  | _ :: _, _ => none

/-- The tree with another part at a place, if the tree has this place. -/
def replaceAt? (n : Node) (path : List Nat) (part : Node) : Option Node :=
  match path, n with
  | [], _ => some part
  | position :: path, container form children => do
    let child ← children[position]?
    return container form (children.set position (← child.replaceAt? path part))
  | _ :: _, _ => none

end Node

/-- A computation that changes a variation and may fail. A failure keeps the changes. -/
abbrev Settling := ExceptT Error (StateM Variation)

namespace Variation

/-- Fill the placeholder at a place in, and record its label. -/
def fill (place : List Nat) : Settling Unit := do
  let some (.placeholder source) := (← get).node.at? place
    | throw (.internal (.placeholderMissing place))
  let (value, label) ← liftM (m := Except Error) (source.decide (← get).node)
  let some node := (← get).node.replaceAt? place value
    | throw (.internal (.placeholderLost place))
  modify fun v => ⟨node, v.labels ++ label.toList⟩

/-- Add the label of a rule. -/
def apply (rule : LabelRule Node) : Settling Unit := do
  let label ← liftM (m := Except Error) (rule.decide (← get).node)
  modify fun v => { v with labels := v.labels ++ [label] }

/-- Fill all placeholders in, and then apply label rules. -/
def settle (rules : List (LabelRule Node)) : Settling Unit := do
  (← get).node.openPlaces.forM fun place => fill place.1
  rules.forM apply

/-- The settled variation, or the failure to settle it. -/
def settled (v : Variation) (rules : List (LabelRule Node)) : Except Error Variation :=
  match (settle rules).run.run v with
  | (.ok (), v) => .ok v
  | (.error e, _) => .error e

end Variation

end ArenaVariations
