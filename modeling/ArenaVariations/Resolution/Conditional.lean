import ArenaVariations.Layout.Block
import ArenaVariations.Node.Equality
import ArenaVariations.Resolution.Reference

/-!
# Deciding conditionals

A value satisfies a case when it lies in the range that the case names, when it is close to the
number that the case is, or when it equals the case otherwise. Numbers are close if they are
equal or differ by at most a billionth of the larger of their magnitudes.

A condition is resolved by looking its references up and finding the first case that the values
satisfy. A reference may lead to another conditional, which is then decided on the spot. The
conditionals that are not being decided yet are idle; a conditional that is needed while it is not
idle depends on its own value.
-/

namespace ArenaVariations

/-- The relative difference up to which numbers are close. -/
def closeness : Float := 1e-9

/-- Whether two numbers are equal but for rounding. -/
def isClose (a b : Float) : Bool :=
  a == b || decide ((a - b).abs ≤ closeness * max a.abs b.abs)

namespace Node

/-- Whether a value satisfies a case. -/
def satisfies (value case : Node) : Bool :=
  match case with
  | interval range => value.number?.any range.contains
  | scalar s =>
    match s.number? with
    | some expected => value.number?.any fun number => isClose number expected
    | none => value == case
  | _ => value == case

/-- Whether values satisfy the parts of a case, one by one. -/
def allSatisfy (values : List Node) (case : Node) : Bool :=
  let expected := Condition.values case
  expected.length == values.length && (values.zip expected).all fun pair => pair.1.satisfies pair.2

end Node

/-- What a condition finds in a variation. -/
structure Resolution where
  /-- The first case that is satisfied, counted from zero. -/
  index : Option Nat
  /-- The values of the references. -/
  values : List Node
deriving Inhabited

namespace Resolution

/-- The values as messages show them. -/
def display (r : Resolution) (multi : Bool) : String :=
  let shown := ", ".intercalate (r.values.map fun v =>
    match v.toFlow with
    | .ok text => text
    | .error _ => v.describe)
  if multi then "[" ++ shown ++ "]" else shown

end Resolution

namespace Node

mutual

/-- The conditionals whose placeholders stand in a tree, each before those after it. -/
def waiting : Node → List (Conditional Node)
  | placeholder source => [source]
  | container _ children => waitingIn children
  | _ => []

/-- The conditionals whose placeholders stand in a list of trees. -/
def waitingIn : List Node → List (Conditional Node)
  | [] => []
  | n :: ns => n.waiting ++ waitingIn ns

end

mutual

/-- The serial numbers of the conditionals that a walk into a tree can come to: of those that wait
there, and of those that wait in what these may stand for. -/
def serials : Node → List Nat
  | placeholder source => serialsOf source
  | container _ children => serialsIn children
  | _ => []

/-- The serial number of a conditional, and those in what it may stand for. -/
def serialsOf : Conditional Node → List Nat
  | ⟨serial, _, outcomes, fallback, _, _⟩ =>
    serial :: (serialsIn outcomes ++ serialsInOption fallback)

/-- The serial numbers that walks into the trees of a list can come to. -/
def serialsIn : List Node → List Nat
  | [] => []
  | n :: ns => n.serials ++ serialsIn ns

/-- The serial numbers that a walk into a tree can come to, if there is one. -/
def serialsInOption : Option Node → List Nat
  | none => []
  | some n => n.serials

end

end Node

namespace Condition

/-- Look at a tree: find the values of the references, and the first case that they satisfy. -/
def resolveWith (root : Node) (force : Conditional Node → Except Error Node)
    (c : Condition Node) : Except Error Resolution := do
  let values ← c.references.mapM (root.resolveReference force)
  return ⟨c.cases.findIdx? (Node.allSatisfy values), values⟩

end Condition

namespace Conditional

/-- A failure to decide a conditional, with the conditional as its excerpt. -/
def failure (c : Conditional Node) (f : Failure) : Error :=
  .unresolved f (Node.conditional c).toYaml.toOption

/-- The value and the label that a conditional stands for, once its condition is resolved. -/
def outcome (c : Conditional Node) (r : Resolution) : Except Error (Node × Option String) :=
  match r.index.bind fun i => c.outcomes[i]? with
  | some value => return (value, r.index.bind fun i => c.labels.bind fun ls => ls[i]?)
  | none =>
    let shown := c.condition.display
    let values := r.display c.condition.multi
    match c.fallback with
    | none => throw (c.failure (.noCase shown values))
    | some value =>
      if c.labels.isSome && c.fallbackLabel.isNone then
        throw (c.failure (.noFallbackLabel shown values))
      else return (value, c.fallbackLabel)

/-- The serial numbers other than a given one. -/
def otherThan (serial : Nat) (serials : List Nat) : List Nat :=
  serials.filter (· ≠ serial)

/-- There are fewer numbers without one of them. -/
theorem length_otherThan {serial : Nat} {serials : List Nat} (h : serial ∈ serials) :
    (otherThan serial serials).length < serials.length :=
  List.length_filter_lt_length_iff_exists.2 ⟨serial, h, by simp⟩

/-- Decide a conditional by looking at a tree, where only idle conditionals may be decided. -/
def decideWith (root : Node) (idle : List Nat) (c : Conditional Node) :
    Except Error (Node × Option String) :=
  if _h : c.serial ∈ idle then do
    let force := fun other => Prod.fst <$> decideWith root (otherThan c.serial idle) other
    c.outcome (← c.condition.resolveWith root force)
  else throw (c.failure (.circular c.condition.display))
termination_by idle.length
decreasing_by exact length_otherThan _h

/-- The value and the label that a conditional stands for in a tree. -/
def decide (root : Node) (c : Conditional Node) : Except Error (Node × Option String) :=
  decideWith root (c.serial :: root.serials) c

end Conditional

namespace Condition

/-- Look at a tree, deciding the conditionals that references lead to. -/
def resolve (root : Node) (c : Condition Node) : Except Error Resolution :=
  c.resolveWith root fun source => Prod.fst <$> source.decide root

end Condition

namespace LabelRule

/-- The label that a rule gives to a variation. -/
def decide (root : Node) (rule : LabelRule Node) : Except Error String := do
  let r ← rule.condition.resolve root
  match (r.index.bind fun i => rule.labels[i]?).or rule.fallback with
  | some label => return label
  | none =>
    throw (.unresolved
      (.noCase rule.condition.display (r.display rule.condition.multi))
      (Node.labelRule rule).toYaml.toOption)

end LabelRule

end ArenaVariations
