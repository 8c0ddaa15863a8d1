import ArenaVariations.Error.Basic
import ArenaVariations.Node.Checked
import ArenaVariations.Yaml.Text.Excerpt
import ArenaVariations.Yaml.Value.OfTree

/-!
# Reading templates

A template is read from the value of its YAML text. Tags of records and procedural tags are
checked while they are read, and the first fault ends the reading; its message shows the part of
the document that it is about. Every reader below takes the reader of smaller parts as a
parameter, and `Node.ofValue?` closes the recursion with the height of the value.

Label rules are only read below the settings of an arena configuration. At last, conditionals are
numbered in the order in which they stand in the document.
-/

namespace ArenaVariations

open Yaml

/-- Reading can fail with an error. -/
abbrev Reading := Except Error

/-- A fault, together with the value it is about if that can be shown. -/
def Fault.at (fault : Fault) (v : Value) : Error :=
  .malformed fault v.excerpt?

/-- Report the fault of a checked tag. -/
def Reading.ofChecked {α : Type} (x : Except Fault α) : Reading α :=
  x.mapError Error.ofFault

namespace Scalar

/-- The scalar that a value stands for, if it is one. Integers beyond 63 bits become doubles. -/
def ofValue? : Value → Option Scalar
  | .null => some null
  | .bool b => some (bool b)
  | .int i => some (if i < Int.pow 2 63 then int (Int64.ofInt i) else float (Float.ofInt i))
  | .float x => some (float x)
  | .text s => some (text s)
  | .sequence _ | .mapping _ | .tagged .. => none

/-- The text of a scalar value other than null. -/
def nameOf? (v : Value) : Option String :=
  match ofValue? v with
  | none | some null => none
  | some s => some s.display

end Scalar

/-- The entries of a tag's mapping, by name. -/
structure Fields where
  tag : String
  source : Value
  entries : List (String × Value)

namespace Fields

/-- Read the entries of a tag's mapping. Only the allowed names may occur. -/
def ofEntries (tag : String) (source : Value) (allowed : List String) :
    List (Value × Value) → Reading (List (String × Value))
  | [] => return []
  | (key, field) :: rest => do
    let some name := Scalar.nameOf? key | throw ((Fault.keysNotText tag).at source)
    if !allowed.contains name then throw ((Fault.unexpectedKey name tag allowed).at source)
    return (name, field) :: (← ofEntries tag source allowed rest)

/-- Read the mapping of a tag. -/
def ofValue (tag : String) (allowed : List String) (v : Value) : Reading Fields := do
  let .mapping entries := v | throw ((Fault.notMapping tag).at v)
  return ⟨tag, v, ← ofEntries tag v allowed entries⟩

/-- The value under a name. -/
def get? (fields : Fields) (name : String) : Option Value :=
  fields.entries.lookup name

/-- The value under a name that must be there. -/
def required (fields : Fields) (name : String) : Reading Value :=
  match fields.get? name with
  | some v => return v
  | none => throw ((Fault.missingKey fields.tag name).at fields.source)

end Fields

namespace Template

/-- The name of a tag: all exclamation marks in front of it are dropped. -/
def tagName (tag : String) : String :=
  String.ofList (tag.toList.dropWhile (· = '!'))

/-- Read a text. Any scalar other than null has one. -/
def readText (tag field : String) (v : Value) : Reading String :=
  match Scalar.nameOf? v with
  | some s => return s
  | none => throw ((Fault.textExpected tag field).at v)

/-- Read a list of texts. -/
def readTexts (tag field : String) : Value → Reading (List String)
  | .sequence items => items.mapM (readText tag field)
  | v => throw ((Fault.textListExpected tag field).at v)

/-- Read an amount: an integer of 64 bits that is not negative. Tags do not matter. -/
def readAmount (tag : String) (v : Value) : Reading UInt64 :=
  match v.untagged with
  | .int i =>
    if 0 ≤ i then return UInt64.ofNat i.toNat else throw ((Fault.amountExpected tag).at v)
  | _ => throw ((Fault.amountExpected tag).at v)

/-- Read a range: a list of two scalars. -/
def readRange (v : Value) : Reading Node :=
  match v with
  | .sequence items =>
    match items.mapM Scalar.ofValue? with
    | some [min, max] => (Reading.ofChecked (Interval.ofBounds min max)).map Node.interval
    | some bounds => throw ((Fault.rangeLength bounds.length).at v)
    | none => throw (Fault.rangeNotList.at v)
  | _ => throw (Fault.rangeNotList.at v)

/-- Read an optional value with a reader. -/
def readOption {α : Type} (read : Value → Reading α) : Option Value → Reading (Option α)
  | none => return none
  | some v => return some (← read v)

section

variable (read : Value → Reading Node)

/-- Read a list of trees. -/
def readNodes (tag : String) : Value → Reading (List Node)
  | .sequence items => items.mapM read
  | v => throw ((Fault.listExpected tag).at v)

/-- Read the key and the value of a mapping's entry. -/
def readEntry (entry : Value × Value) : Reading (Scalar × Node) := do
  let some key := Scalar.ofValue? entry.1 | throw (Fault.keyNotScalar.at entry.1)
  return (key, ← read entry.2)

/-- Read an option with its label. -/
def readLabelled (v : Value) : Reading (Node × String) := do
  let fields ← (Fields.ofValue "ProcListLabelled" ["value", "label"] v).mapError
    fun _ => Fault.labelledItem.at v
  let value ← read (← fields.required "value")
  let label ← readText "ProcListLabelled" "label" (← fields.required "label")
  return (value, label)

/-- Read a labelled choice. -/
def readLabelledChoice (v : Value) : Reading Node := do
  let .sequence items := v | throw (Fault.labelledNotList.at v)
  Reading.ofChecked (Node.labelledChoiceOf (← items.mapM (readLabelled read)))

/-- Read a scaled vector. -/
def readScaled (v : Value) : Reading Node := do
  let fields ← Fields.ofValue "ProcVector3Scaled" ["base", "scales", "labels"] v
  let base ← readOption read (fields.get? "base")
  let scales ← readNodes read "ProcVector3Scaled" (← fields.required "scales")
  let labels ← readOption (readTexts "ProcVector3Scaled" "labels") (fields.get? "labels")
  Reading.ofChecked (Node.scaledOf base scales labels)

/-- Read a repetition. -/
def readRepetition (v : Value) : Reading Node := do
  let fields ← Fields.ofValue "ProcRepeatChoice" ["amount", "value"] v
  let amount ← readAmount "ProcRepeatChoice" (← fields.required "amount")
  return .repetition amount (← read (← fields.required "value"))

/-- Read a restriction. Its item may stand under either of two names. -/
def readRestriction (v : Value) : Reading Node := do
  let fields ← Fields.ofValue "ProcRestrictCombinations" ["amount", "item", "value"] v
  let item ← match fields.get? "item", fields.get? "value" with
    | some _, some _ => throw (Fault.itemAndValue.at v)
    | some item, none | none, some item => pure item
    | none, none => fields.required "item"
  let amount ← readAmount "ProcRestrictCombinations" (← fields.required "amount")
  return .restriction amount (← read item)

/-- Read the references and the cases of a conditional or a label rule. -/
def readCondition (tag : String) (fields : Fields) : Reading (Condition Node) := do
  let references ← fields.required "variable"
  let (names, multi) ← match references with
    | .sequence _ => do pure (← readTexts tag "variable" references, true)
    | _ => do pure ([← readText tag "variable" references], false)
  let cases ← readNodes read tag (← fields.required "cases")
  Reading.ofChecked (Condition.ofParts names multi cases)

/-- Read a conditional. A null default counts as none. -/
def readConditional (v : Value) : Reading Node := do
  let fields ← Fields.ofValue "ProcIf"
    ["variable", "cases", "then", "default", "labels", "default_label"] v
  let condition ← readCondition read "ProcIf" fields
  let outcomes ← readNodes read "ProcIf" (← fields.required "then")
  let given := (fields.get? "default").filter fun d => match d.untagged with
    | .null => false
    | _ => true
  let fallback ← readOption read given
  let labels ← readOption (readTexts "ProcIf" "labels") (fields.get? "labels")
  let fallbackLabel ← readOption (readText "ProcIf" "default_label") (fields.get? "default_label")
  (Reading.ofChecked
    (Conditional.ofParts 0 condition outcomes fallback labels fallbackLabel)).map Node.conditional

/-- Read a label rule. -/
def readLabelRule (v : Value) : Reading Node := do
  let fields ← Fields.ofValue "ProcIfLabels" ["variable", "cases", "labels", "default"] v
  let condition ← readCondition read "ProcIfLabels" fields
  let labels ← readTexts "ProcIfLabels" "labels" (← fields.required "labels")
  let fallback ← readOption (readText "ProcIfLabels" "default") (fields.get? "default")
  (Reading.ofChecked (LabelRule.ofParts condition labels fallback)).map Node.labelRule

/-- Read one of the document's label rules. -/
def readRuleItem (v : Value) : Reading Node :=
  match v with
  | .tagged tag inner =>
    if tagName tag = "ProcIfLabels" then readLabelRule read inner
    else throw (Fault.labelRulesNotList.at v)
  | _ => throw (Fault.labelRulesNotList.at v)

/-- Read the settings of a document. -/
def readMeta (v : Value) : Reading Node := do
  let fields ← Fields.ofValue metaField [labelRulesKey] v
  let rules ← match fields.get? labelRulesKey with
    | none => pure []
    | some (.sequence items) => items.mapM (readRuleItem read)
    | some other => throw (Fault.labelRulesNotList.at other)
  return .mapping [(.text labelRulesKey, .sequence rules)]

/-- Read the fields of a record after those in `before`, which are held in reverse. -/
def readFields (kind : RecordKind) (source : Value) (id : Option String)
    (before : List (String × Node)) : List (Value × Value) → Reading Node
  | [] => return .record kind id before.reverse
  | (key, field) :: rest => do
    let some name := Scalar.nameOf? key | throw ((Fault.keysNotText kind.tag).at source)
    if name = idField then
      let some id := Scalar.nameOf? field | throw (Fault.idNotPlain.at field)
      readFields kind source (some id) before rest
    else
      if !kind.fields.contains name then
        throw ((Fault.unexpectedKey name kind.tag kind.fields).at source)
      let node ←
        if kind = .arenaConfig ∧ name = metaField then readMeta read field else read field
      readFields kind source id ((name, node) :: before) rest

/-- Read a record. Without a value it has no fields. -/
def readRecord (kind : RecordKind) (v : Value) : Reading Node :=
  match v with
  | .mapping entries => readFields read kind v none [] entries
  | .null => return .record kind none []
  | _ => throw ((Fault.notMapping kind.tag).at v)

/-- Read a value under a tag. A tag without a meaning may only stand before a scalar. -/
def readTagged (tag : String) (v : Value) : Reading Node :=
  match RecordKind.ofTag? tag with
  | some kind => readRecord read kind v
  | none =>
    match tag with
    | "R" => readRange v
    | "ProcList" => do
      Reading.ofChecked (Node.choiceOf (← readNodes read "ProcList" v))
    | "ProcListLabelled" => readLabelledChoice read v
    | "ProcColor" => do Reading.ofChecked (Node.paletteOf (← readAmount "ProcColor" v))
    | "ProcVector3Scaled" => readScaled read v
    | "ProcRepeatChoice" => readRepetition read v
    | "ProcRestrictCombinations" => readRestriction read v
    | "ProcIf" => readConditional read v
    | "ProcIfLabels" => throw (Fault.strayLabelRule.at v)
    | _ =>
      match Scalar.ofValue? v with
      | some value => return .tagged ⟨tag, value⟩
      | none => throw ((Fault.unknownTag tag).at v)

/-- Read a value, with a reader for its parts. -/
def readNode (v : Value) : Reading Node :=
  match v with
  | .sequence items => do return .sequence (← items.mapM read)
  | .mapping entries => do return .mapping (← entries.mapM (readEntry read))
  | .tagged tag inner => readTagged read (tagName tag) inner
  | scalar =>
    match Scalar.ofValue? scalar with
    | some s => return .scalar s
    | none => throw (Fault.keyNotScalar.at scalar)

end

/-- Read a value that is nested to no more than a given depth. -/
def readToDepth : Nat → Value → Reading Node
  | 0, v => throw ((Fault.custom "The document is nested too deeply.").at v)
  | depth + 1, v => readNode (readToDepth depth) v

end Template

namespace Node

mutual

/-- Number the conditionals of a tree from `n` on, in the order in which they stand; the result
has the next number. Conditionals do not occur inside of static values. -/
def number (n : Nat) : Node → Node × Nat
  | container form children =>
    let (children, n) := numberList n children
    (container form children, n)
  | repetition amount value =>
    let (value, n) := value.number n
    (repetition amount value, n)
  | restriction amount item =>
    let (item, n) := item.number n
    (restriction amount item, n)
  | conditional source => (conditional { source with serial := n }, n + 1)
  | other => (other, n)

/-- Number the conditionals of a list of trees. -/
def numberList (n : Nat) : List Node → List Node × Nat
  | [] => ([], n)
  | t :: ts =>
    let (t, n) := t.number n
    let (ts, n) := numberList n ts
    (t :: ts, n)

end

/-- The tree that a YAML value describes. -/
def ofValue? (v : Value) : Reading Node := do
  return ((← Template.readToDepth v.height v).number 0).1

/-- Read a template from its text. `source` names the text in messages. -/
def parse (text source : String) : Reading Node :=
  match Value.ofChars? text.toList with
  | some v => ofValue? v
  | none => throw (.unreadable ⟨"the text is not a YAML document", source, text, none, 0, 0⟩)

end Node

end ArenaVariations
