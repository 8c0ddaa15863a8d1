import ArenaVariations.Error.Fault

/-!
# Checked tags

Each procedural tag has a shape that is checked when the tag is built, so that a malformed tag is
reported when its template is read and never during expansion. The first check that fails names
the fault. Values that a tag copies as they are must be static: no procedural tag may hide in
them.
-/

namespace ArenaVariations

/-- Fail with a fault unless a condition holds. -/
def Fault.unless (ok : Bool) (fault : Fault) : Except Fault Unit :=
  if ok then .ok () else .error fault

/-- A range from its bounds, which must be numbers in ascending order. A bound that is not a
number in the sense of doubles is in order with every other one. -/
def Interval.ofBounds (min max : Scalar) : Except Fault Interval :=
  match min.number?, max.number? with
  | some lo, some hi => if hi < lo then .error (.reversedRange min max) else .ok ⟨min, max⟩
  | _, _ => .error (.boundsNotNumbers min max)

/-- The red, green and blue parts of the colors: red, green, blue, yellow, magenta, cyan, two
shades of gray, dark red and dark green. -/
def colors : List (Int64 × Int64 × Int64) :=
  [(255, 0, 0), (0, 255, 0), (0, 0, 255), (255, 255, 0), (255, 0, 255), (0, 255, 255),
    (192, 192, 192), (128, 128, 128), (128, 0, 0), (0, 128, 0)]

namespace Node

/-- Values that are copied as they are must be static. -/
def requireStatic (tag field : String) (value : Node) : Except Fault Unit :=
  Fault.unless value.isStatic (.notStatic tag field value)

/-- A choice needs at least one option, and its options are static. -/
def choiceOf (options : List Node) : Except Fault Node := do
  Fault.unless (!options.isEmpty) (.noOptions "ProcList")
  options.forM (requireStatic "ProcList" "options")
  return choice options

/-- A labelled choice needs at least one option, and its options are static. -/
def labelledChoiceOf (options : List (Node × String)) : Except Fault Node := do
  Fault.unless (!options.isEmpty) (.noOptions "ProcListLabelled")
  options.forM fun option => requireStatic "ProcListLabelled" "value" option.1
  return labelledChoice options

/-- A palette takes at least one color and no more than there are. -/
def paletteOf (amount : UInt64) : Except Fault Node :=
  if 1 ≤ amount.toNat ∧ amount.toNat ≤ colors.length then .ok (palette amount)
  else .error (.paletteAmount colors.length amount)

/-- The components of a vector with numeric fields. -/
def components? : Node → Option (Float × Float × Float)
  | n@(container (.record .vector3 _ _) _) => do
    let x ← (n.field? "x").bind number?
    let y ← (n.field? "y").bind number?
    let z ← (n.field? "z").bind number?
    return (x, y, z)
  | _ => none

/-- The scalars of a list of numeric leaves; the first other tree is the fault. -/
def scalesOf : List Node → Except Fault (List Scalar)
  | [] => .ok []
  | scalar s :: rest =>
    if s.isNumeric then (scalesOf rest).map (s :: ·) else .error (.scaleNotNumber (scalar s))
  | other :: _ => .error (.scaleNotNumber other)

/-- A scaled vector needs at least one factor, as many labels as factors if it has labels, and a
base with numeric components if it has a base. -/
def scaledOf (base : Option Node) (scales : List Node) (labels : Option (List String)) :
    Except Fault Node := do
  Fault.unless (!scales.isEmpty) .noScales
  let factors ← scalesOf scales
  if let some ls := labels then
    Fault.unless (ls.length == scales.length) (.scaleLabels scales.length ls.length)
  if let some b := base then
    Fault.unless b.components?.isSome (.baseNotVector b)
  return scaled base factors labels

end Node

/-- The cases of a condition must be static and have one value for each reference. Cases are
counted from one. -/
def Condition.checkCases (references : List String) : Nat → List Node → Except Fault Unit
  | _, [] => .ok ()
  | index, case :: rest => do
    case.requireStatic "ProcIf" "cases"
    let arity := (Condition.values case).length
    Fault.unless (arity == references.length) (.caseArity index arity case references)
    checkCases references (index + 1) rest

/-- A condition needs at least one reference, and well-formed cases. -/
def Condition.ofParts (references : List String) (multi : Bool) (cases : List Node) :
    Except Fault (Condition Node) := do
  Fault.unless (!references.isEmpty) .noVariables
  checkCases references 1 cases
  return ⟨references, multi, cases⟩

/-- A conditional has one value for each case, one label for each case if it has labels, and its
values are static. -/
def Conditional.ofParts (serial : Nat) (condition : Condition Node) (outcomes : List Node)
    (fallback : Option Node) (labels : Option (List String)) (fallbackLabel : Option String) :
    Except Fault (Conditional Node) := do
  let cases := condition.cases.length
  Fault.unless (outcomes.length == cases) (.outcomeCount cases outcomes.length)
  if let some ls := labels then
    Fault.unless (ls.length == cases) (.labelCount cases ls.length)
  (outcomes ++ fallback.toList).forM (Node.requireStatic "ProcIf" "then")
  return ⟨serial, condition, outcomes, fallback, labels, fallbackLabel⟩

/-- A label rule has one label for each case. -/
def LabelRule.ofParts (condition : Condition Node) (labels : List String)
    (fallback : Option String) : Except Fault (LabelRule Node) := do
  let cases := condition.cases.length
  Fault.unless (labels.length == cases) (.ruleLabelCount cases labels.length)
  return ⟨condition, labels, fallback⟩

end ArenaVariations
