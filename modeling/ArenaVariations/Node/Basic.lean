import ArenaVariations.RecordKind
import ArenaVariations.Scalar

/-!
# Template trees

A template is a tree of `Node`s. Plain scalars and containers stand beside the procedural tags:
those that make a template describe more than one variation, and the conditionals, which are
filled in once the rest of a variation is known.

A container is its `form`, which says how children are addressed, and its children. Expansion
replaces children and never touches the form, so keys, field names, record kinds and ids are
kept by construction.

A conditional carries a serial number that tells it apart from every other conditional of its
document. A placeholder is what expansion leaves where a conditional stood; copies of one
conditional share its number. Conditionals are compared by what they say, placeholders by their
numbers alone.
-/

namespace ArenaVariations

/-- How a container addresses its children: by position, by key or by field name. -/
inductive Form where
  | sequence
  | mapping (keys : List Scalar)
  | record (kind : RecordKind) (id : Option String) (names : List String)
deriving Inhabited

/-- What a conditional or a label rule looks at: references into the finished variation, and
cases that the values found there are compared with. -/
structure Condition (α : Type) where
  /-- Dotted references such as `goal.sizes.0.x`. -/
  references : List String
  /-- The references were written as a list. -/
  multi : Bool
  /-- A value or range for each case, or a list of them if there are several references. -/
  cases : List α
deriving Inhabited

/-- A value that is picked by looking at other values of the same variation. -/
structure Conditional (α : Type) where
  serial : Nat
  condition : Condition α
  /-- The value for each case. -/
  outcomes : List α
  /-- The value when no case matches. -/
  fallback : Option α
  labels : Option (List String)
  fallbackLabel : Option String
deriving Inhabited

/-- A label that is picked by looking at values of the variation. -/
structure LabelRule (α : Type) where
  condition : Condition α
  labels : List String
  /-- The label when no case matches. -/
  fallback : Option String
deriving Inhabited

/-- A template, a variation, or a part of one. -/
inductive Node where
  | scalar (value : Scalar)
  | interval (range : Interval)
  | tagged (value : TaggedScalar)
  | container (form : Form) (children : List Node)
  /-- One of several values. -/
  | choice (options : List Node)
  /-- One of several values; the label of the chosen one is recorded. -/
  | labelledChoice (options : List (Node × String))
  /-- One of the first colors of the palette. -/
  | palette (amount : UInt64)
  /-- A base vector, or the vector of ones, multiplied by one of several factors. -/
  | scaled (base : Option Node) (scales : List Scalar) (labels : Option (List String))
  /-- One variation of a value, repeated in a list. -/
  | repetition (amount : UInt64) (value : Node)
  /-- At most so many sampled variations of an item. -/
  | restriction (amount : UInt64) (item : Node)
  | conditional (source : Conditional Node)
  | labelRule (rule : LabelRule Node)
  /-- A conditional that waits for the rest of its variation. -/
  | placeholder (source : Conditional Node)
deriving Inhabited

/-- Trees in a list, as the loops over containers meet them. -/
abbrev Nodes := List Node

/-- The labels of a variation, in the order in which they were met. -/
abbrev Labels := List String

/-- A produced tree and the labels collected on the way. -/
structure Variation where
  node : Node
  labels : Labels
deriving Inhabited

namespace Form

instance : BEq Form where
  beq
    | .sequence, .sequence => true
    | .mapping ks, .mapping ls => ks == ls
    | .record k i ns, .record l j ms => k == l && i == j && ns == ms
    | _, _ => false

end Form

namespace Node

/-- A list of trees. -/
@[match_pattern] abbrev sequence (items : List Node) : Node := container .sequence items

/-- A mapping from its entries, in source order. -/
def mapping (entries : List (Scalar × Node)) : Node :=
  container (.mapping (entries.map Prod.fst)) (entries.map Prod.snd)

/-- A record from its fields, in source order. -/
def record (kind : RecordKind) (id : Option String) (fields : List (String × Node)) : Node :=
  container (.record kind id (fields.map Prod.fst)) (fields.map Prod.snd)

/-- A text leaf. -/
def text (s : String) : Node := scalar (.text s)

/-- An integer leaf. -/
def int (i : Int64) : Node := scalar (.int i)

/-- A float leaf. -/
def float (x : Float) : Node := scalar (.float x)

/-- An amount as it appears among the children of its tag. Amounts from `2 ^ 63` on wrap around
to negative integers. -/
def ofAmount (amount : UInt64) : Node := int amount.toInt64

/-- A vector from its components. -/
def vector3 (x y z : Float) : Node :=
  record .vector3 none [("x", float x), ("y", float y), ("z", float z)]

/-- A color from its components. -/
def rgb (r g b : Int64) : Node :=
  record .rgb none [("r", int r), ("g", int g), ("b", int b)]

/-- The scalar that a leaf holds. -/
def scalar? : Node → Option Scalar
  | scalar s => some s
  | _ => none

/-- The numeric value of a leaf. -/
def number? (n : Node) : Option Float :=
  n.scalar?.bind Scalar.number?

/-- The children of a container that are filed under a matching key or name, first one first. -/
def lookup {κ : Type} (addresses : List κ) (children : List Node) (matching : κ → Bool) :
    Option Node :=
  ((addresses.zip children).find? fun entry => matching entry.1).map Prod.snd

/-- The value of a mapping under a key. -/
def valueAt? (n : Node) (key : Scalar) : Option Node :=
  match n with
  | container (.mapping keys) children => lookup keys children (· == key)
  | _ => none

/-- The value of a mapping under a text key. -/
def valueNamed? (n : Node) (name : String) : Option Node :=
  n.valueAt? (.text name)

/-- The value of a record's field. -/
def field? (n : Node) (name : String) : Option Node :=
  match n with
  | container (.record _ _ names) children => lookup names children (· == name)
  | _ => none

/-- The fields of a record in the order its kind declares, without the absent ones. -/
def orderedFields : Node → List (String × Node)
  | n@(container (.record kind _ _) _) =>
    kind.fields.filterMap fun name => (n.field? name).map fun value => (name, value)
  | _ => []

/-- The same container with other children. Addresses and children beyond the shorter of the two
lists are dropped. -/
def withChildren (n : Node) (values : List Node) : Node :=
  match n with
  | container .sequence _ => sequence values
  | container (.mapping keys) _ => mapping (keys.zip values)
  | container (.record kind id names) _ => record kind id (names.zip values)
  | other => other

/-- The name of a procedural tag, without the exclamation mark. -/
def tag? : Node → Option String
  | choice _ => some "ProcList"
  | labelledChoice _ => some "ProcListLabelled"
  | palette _ => some "ProcColor"
  | scaled .. => some "ProcVector3Scaled"
  | repetition .. => some "ProcRepeatChoice"
  | restriction .. => some "ProcRestrictCombinations"
  | conditional _ => some "ProcIf"
  | labelRule _ => some "ProcIfLabels"
  | scalar _ | interval _ | tagged _ | container .. | placeholder _ => none

/-- A short description for messages. -/
def describe : Node → String
  | scalar s => s!"the value {s.display}"
  | interval r => s!"!R [{r.min.display}, {r.max.display}]"
  | tagged t => s!"!{t.tag} {t.value.display}"
  | container .sequence items => s!"a list of {items.length} items"
  | container (.mapping _) _ => "a mapping"
  | container (.record kind _ _) _ => s!"!{kind.tag}"
  | placeholder _ => "an unresolved !ProcIf"
  | n => "!" ++ n.tag?.getD ""

mutual

/-- Whether no procedural tag and no placeholder occurs in the tree. Ids, keys and the insides of
tags do not count. -/
def isStatic : Node → Bool
  | scalar _ | interval _ | tagged _ => true
  | container _ children => allStatic children
  | choice _ | labelledChoice _ | palette _ | scaled .. | repetition .. | restriction ..
  | conditional _ | labelRule _ | placeholder _ => false

/-- Whether all trees of a list are static. -/
def allStatic : List Node → Bool
  | [] => true
  | n :: ns => n.isStatic && allStatic ns

end

/-- The trees directly below a node, including amounts, in the order in which they are written. -/
def children : Node → List Node
  | scalar _ | interval _ | tagged _ | placeholder _ => []
  | container _ children => children
  | choice options => options
  | labelledChoice options => options.map Prod.fst
  | palette amount => [ofAmount amount]
  | scaled base scales _ => base.toList ++ scales.map scalar
  | repetition amount value => [ofAmount amount, value]
  | restriction amount item => [ofAmount amount, item]
  | conditional source => source.condition.cases ++ source.outcomes ++ source.fallback.toList
  | labelRule rule => rule.condition.cases

end Node

namespace Condition

variable {α : Type}

/-- The references as messages show them. -/
def display (c : Condition α) : String :=
  if c.multi then "[" ++ ", ".intercalate c.references ++ "]" else c.references.headD ""

/-- The values of a case, one for each reference. -/
def values : Node → List Node
  | .container .sequence items => items
  | n => [n]

end Condition

end ArenaVariations
