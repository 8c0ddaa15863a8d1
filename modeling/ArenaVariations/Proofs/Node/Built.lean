import ArenaVariations.Expansion.Rule
import ArenaVariations.Node.Checked

/-!
# Trees that pass their checks

`Node.Built` describes the trees that can be put together: leaves, containers with an address for
each child, and tags that their own checks accept. A tree read from a template is built, and so is
every variation of one. Later statements need the checks only through what they exclude, which the
lemmas after them say: no choice is empty, no palette runs out of colors, and the values that are
copied as they are hold no procedural tag.

`Node.FreeOf` says that nodes of certain sorts occur nowhere in a tree, at any depth and inside of
tags as well.
-/

namespace ArenaVariations

/-- Whether a form has an address for each of so many children. -/
def Form.Fits (amount : Nat) : Form → Prop
  | .sequence => True
  | .mapping keys => keys.length = amount
  | .record _ _ names => names.length = amount

/-- The parts of a condition pass its checks. -/
def Condition.Checked (c : Condition Node) : Prop :=
  Condition.ofParts c.references c.multi c.cases = .ok c

/-- The parts of a conditional pass its checks. -/
def Conditional.Checked (c : Conditional Node) : Prop :=
  c.condition.Checked ∧
    Conditional.ofParts c.serial c.condition c.outcomes c.fallback c.labels c.fallbackLabel = .ok c

/-- The parts of a label rule pass its checks. -/
def LabelRule.Checked (r : LabelRule Node) : Prop :=
  r.condition.Checked ∧ LabelRule.ofParts r.condition r.labels r.fallback = .ok r

namespace Node

/-- Trees put together from leaves, containers and tags that pass their checks. -/
inductive Built : Node → Prop where
  | scalar (value : Scalar) : Built (.scalar value)
  | interval {range : Interval} (checked : Interval.ofBounds range.min range.max = .ok range) :
      Built (.interval range)
  | tagged (value : TaggedScalar) : Built (.tagged value)
  | container {form : Form} {children : List Node} (fits : form.Fits children.length)
      (built : ∀ n ∈ children, Built n) : Built (.container form children)
  | choice {options : List Node} (built : ∀ n ∈ options, Built n)
      (checked : choiceOf options = .ok (.choice options)) : Built (.choice options)
  | labelledChoice {options : List (Node × String)} (built : ∀ option ∈ options, Built option.1)
      (checked : labelledChoiceOf options = .ok (.labelledChoice options)) :
      Built (.labelledChoice options)
  | palette {amount : UInt64} (checked : paletteOf amount = .ok (.palette amount)) :
      Built (.palette amount)
  | scaled {base : Option Node} {scales : List Scalar} {labels : Option (List String)}
      (built : ∀ b ∈ base, Built b)
      (checked : scaledOf base (scales.map .scalar) labels = .ok (.scaled base scales labels)) :
      Built (.scaled base scales labels)
  | repetition (amount : UInt64) {value : Node} (built : Built value) :
      Built (.repetition amount value)
  | restriction (amount : UInt64) {item : Node} (built : Built item) :
      Built (.restriction amount item)
  | conditional {source : Conditional Node}
      (built : ∀ n ∈ (Node.conditional source).children, Built n) (checked : source.Checked) :
      Built (.conditional source)
  | labelRule {rule : LabelRule Node} (built : ∀ n ∈ rule.condition.cases, Built n)
      (checked : rule.Checked) : Built (.labelRule rule)
  | placeholder {source : Conditional Node} (built : Built (.conditional source)) :
      Built (.placeholder source)

/-- A tree stands somewhere in another one, which is a part of itself. -/
inductive PartOf : Node → Node → Prop where
  | whole (n : Node) : PartOf n n
  | inside {m child n : Node} (mem : child ∈ n.children) (part : PartOf m child) : PartOf m n

/-- No node of certain sorts occurs in a tree. -/
def FreeOf (rules : List Rule) (n : Node) : Prop :=
  ∀ m : Node, m.PartOf n → m.rule ∉ rules

/-- Sorts are excluded from a tree by excluding them at its root and below. -/
theorem freeOf_iff {rules : List Rule} {n : Node} :
    n.FreeOf rules ↔ n.rule ∉ rules ∧ ∀ child ∈ n.children, child.FreeOf rules := by
  constructor
  · intro h
    exact ⟨h n (.whole n), fun child mem m part => h m (.inside mem part)⟩
  · rintro ⟨root, below⟩ m part
    cases part with
    | whole => exact root
    | inside mem part => exact below _ mem m part

theorem FreeOf.child {rules : List Rule} {n child : Node} (h : n.FreeOf rules)
    (mem : child ∈ n.children) : child.FreeOf rules :=
  (freeOf_iff.mp h).2 child mem

/-- Excluding more sorts excludes fewer ones as well. -/
theorem FreeOf.mono {rules fewer : List Rule} {n : Node} (h : n.FreeOf rules)
    (sub : fewer ⊆ rules) : n.FreeOf fewer :=
  fun m part mem => h m part (sub mem)

end Node

end ArenaVariations
