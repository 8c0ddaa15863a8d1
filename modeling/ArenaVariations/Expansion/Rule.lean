import ArenaVariations.Node.Basic

/-!
# Expansion rules

Every sort of node is expanded by a rule of its own. The role of a rule says how its nodes
contribute to the number of variations: static nodes multiply what their children contribute,
combinatorial ones bring variations of their own, and conditionals never add any, because they
are filled in once a variation is complete.
-/

namespace ArenaVariations

/-- How nodes contribute to the number of variations. -/
inductive Role where
  /-- Containers and leaves. -/
  | static
  | combinatorial
  /-- Filled in after expansion. -/
  | conditional
  /-- Only found in expanded variations. -/
  | placeholder
deriving DecidableEq, Repr, Inhabited

/-- The rules of expansion, one for each sort of node. -/
inductive Rule where
  | choice
  | labelledChoice
  | palette
  | scaled
  | repetition
  | restriction
  | conditional
  | labelRule
  | placeholder
  | record
  | interval
  | tagged
  | sequence
  | mapping
  | scalar
deriving DecidableEq, Repr, Inhabited

namespace Rule

/-- Every rule. -/
def all : List Rule :=
  [choice, labelledChoice, palette, scaled, repetition, restriction, conditional, labelRule,
    placeholder, record, interval, tagged, sequence, mapping, scalar]

/-- The name of a rule in explanations and messages. -/
def name : Rule → String
  | choice => "ProcList"
  | labelledChoice => "ProcListLabelled"
  | palette => "ProcColor"
  | scaled => "ProcVector3Scaled"
  | repetition => "ProcRepeatChoice"
  | restriction => "ProcRestrictCombinations"
  | conditional => "ProcIf"
  | labelRule => "ProcIfLabels"
  | placeholder => "Pending"
  | record => "Record"
  | interval => "R"
  | tagged => "TaggedScalar"
  | sequence => "Sequence"
  | mapping => "Mapping"
  | scalar => "Scalar"

/-- The rule of a name. -/
def ofName? (name : String) : Option Rule :=
  all.find? fun rule => rule.name == name

@[simp] theorem ofName?_name (rule : Rule) : ofName? rule.name = some rule := by
  cases rule <;> rfl

/-- The role of a rule's nodes. -/
def role : Rule → Role
  | choice | labelledChoice | palette | scaled | repetition | restriction => .combinatorial
  | conditional | labelRule => .conditional
  | placeholder => .placeholder
  | record | interval | tagged | sequence | mapping | scalar => .static

end Rule

namespace Node

/-- The rule that expands a node. -/
def rule : Node → Rule
  | choice _ => .choice
  | labelledChoice _ => .labelledChoice
  | palette _ => .palette
  | scaled .. => .scaled
  | repetition .. => .repetition
  | restriction .. => .restriction
  | conditional _ => .conditional
  | labelRule _ => .labelRule
  | placeholder _ => .placeholder
  | container (.record ..) _ => .record
  | container .sequence _ => .sequence
  | container (.mapping _) _ => .mapping
  | interval _ => .interval
  | tagged _ => .tagged
  | scalar _ => .scalar

end Node

end ArenaVariations
