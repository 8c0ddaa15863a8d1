import ArenaVariations.Error.Basic
import ArenaVariations.Yaml.Text.Style

/-!
# Scalars, and trees on one line

Template files are written with one scalar on a line at most. A text is quoted only if YAML would
read it as something else: then it is written as a YAML document of its own would show it, and as
a JSON string, which YAML reads too, if that takes several lines. On a line with other nodes a
plain text must not hold a character that delimits flow collections.

`Node.toFlow` writes a tree in flow style. Records are written with their fields in the declared
order and without their ids; procedural tags are written with the plain view of what they hold,
so that reading gives the same tag back. A placeholder has no text.
-/

namespace ArenaVariations

open Yaml

/-- Drop the newlines at the end of a text. -/
def dropFinalNewlines (cs : List Char) : List Char :=
  (cs.reverse.dropWhile (· = '\n')).reverse

/-- Write a text, inside a flow collection or on a line of its own. -/
def quoteText (flow : Bool) (s : String) : String :=
  let cs := s.toList
  let written := dropFinalNewlines ((TextStyle.choose false cs).write 2 cs)
  if written.contains '\n' ∨ (flow ∧ written = cs ∧ cs.any isFlowIndicator) then
    Text.jsonString s
  else String.ofList written

/-- Write a scalar, inside a flow collection or on a line of its own. -/
def Scalar.write (flow : Bool) : Scalar → String
  | text s => quoteText flow s
  | other => other.display

namespace Flow

/-- A list in square brackets. -/
def list (items : List String) : String :=
  "[" ++ ", ".intercalate items ++ "]"

/-- A mapping in braces. -/
def map (entries : List (String × String)) : String :=
  "\x7b" ++ ", ".intercalate (entries.map fun e => e.1 ++ ": " ++ e.2) ++ "\x7d"

/-- A list of texts. -/
def texts (ss : List String) : String :=
  list (ss.map (quoteText true))

/-- An entry that may be left out. -/
def option {α : Type} (name : String) (value : Option α) (write : α → String) :
    List (String × String) :=
  value.toList.map fun v => (name, write v)

/-- The references of a condition as they were written. -/
def references (c : Condition Node) : String :=
  if c.multi then texts c.references else quoteText true (c.references.headD "")

end Flow

/-- Writing can fail with an error. -/
abbrev Writing := Except Error

/-- The failure to write a placeholder. -/
def placeholderWritten : Error := .internal .placeholderWritten

/-- What stands under the names that occur, in the order of the first list. -/
def pickOrdered {β : Type} (wanted names : List String) (values : List β) : List (String × β) :=
  wanted.filterMap fun name =>
    ((names.zip values).find? fun entry => entry.1 == name).map fun entry => (name, entry.2)

/-- Join the values of a list of results, or fail with the first failure. -/
def pickAll {β : Type} : List (String × Writing β) → Writing (List (String × β))
  | [] => return []
  | (name, value) :: rest => return (name, ← value) :: (← pickAll rest)

namespace Node

mutual

/-- Write a tree on one line. -/
def toFlow : Node → Writing String
  | scalar s => return s.write true
  | tagged t => return s!"!{t.tag} " ++ t.value.write true
  | interval r => return "!R " ++ Flow.list [r.min.write true, r.max.write true]
  | container .sequence items => return Flow.list (← allToFlow items)
  | container (.mapping keys) children =>
    return Flow.map ((keys.map (Scalar.write true)).zip (← allToFlow children))
  | container (.record kind _ names) children =>
    return s!"!{kind.tag} "
      ++ Flow.map (← pickAll (pickOrdered kind.fields names (eachToFlow children)))
  | choice options => return "!ProcList " ++ Flow.list (← allToFlow options)
  | labelledChoice options => return "!ProcListLabelled " ++ Flow.list (← optionsToFlow options)
  | palette amount => return "!ProcColor " ++ toString amount.toInt64.toInt
  | scaled base scales labels => do
    let base ← optionToFlow base
    return "!ProcVector3Scaled " ++ Flow.map (Flow.option "base" base id
      ++ [("scales", Flow.list (scales.map (Scalar.write true)))]
      ++ Flow.option "labels" labels Flow.texts)
  | repetition amount value =>
    return "!ProcRepeatChoice "
      ++ Flow.map [("amount", toString amount.toInt64.toInt), ("value", ← value.toFlow)]
  | restriction amount item =>
    return "!ProcRestrictCombinations "
      ++ Flow.map [("amount", toString amount.toInt64.toInt), ("item", ← item.toFlow)]
  | conditional source => conditionalToFlow source
  | labelRule rule => ruleToFlow rule
  | placeholder _ => throw placeholderWritten
termination_by structural n => n

/-- Write each tree of a list on one line, or fail. -/
def allToFlow : List Node → Writing (List String)
  | [] => return []
  | n :: ns => return (← n.toFlow) :: (← allToFlow ns)
termination_by structural ns => ns

/-- Write each tree of a list on one line, with a result of its own. -/
def eachToFlow : List Node → List (Writing String)
  | [] => []
  | n :: ns => n.toFlow :: eachToFlow ns
termination_by structural ns => ns

/-- Write labelled options. -/
def optionsToFlow : List (Node × String) → Writing (List String)
  | [] => return []
  | o :: os => return (← labelledToFlow o) :: (← optionsToFlow os)
termination_by structural os => os

/-- Write a labelled option. -/
def labelledToFlow : Node × String → Writing String
  | (value, label) =>
    return Flow.map [("value", ← value.toFlow), ("label", quoteText true label)]
termination_by structural o => o

/-- Write an optional tree. -/
def optionToFlow : Option Node → Writing (Option String)
  | none => return none
  | some n => return some (← n.toFlow)
termination_by structural o => o

/-- Write the references and cases of a condition. -/
def conditionToFlow : Condition Node → Writing (List (String × String))
  | ⟨names, multi, cases⟩ => return [
      ("variable", Flow.references ⟨names, multi, []⟩),
      ("cases", Flow.list (← allToFlow cases))]
termination_by structural c => c

/-- Write a conditional. -/
def conditionalToFlow : Conditional Node → Writing String
  | ⟨_, condition, outcomes, fallback, labels, fallbackLabel⟩ => do
    let condition ← conditionToFlow condition
    let outcomes ← allToFlow outcomes
    let fallback ← optionToFlow fallback
    return "!ProcIf " ++ Flow.map (condition ++ [("then", Flow.list outcomes)]
      ++ Flow.option "default" fallback id
      ++ Flow.option "labels" labels Flow.texts
      ++ Flow.option "default_label" fallbackLabel (quoteText true))
termination_by structural c => c

/-- Write a label rule. -/
def ruleToFlow : LabelRule Node → Writing String
  | ⟨condition, labels, fallback⟩ => do
    let condition ← conditionToFlow condition
    return "!ProcIfLabels " ++ Flow.map (condition ++ [("labels", Flow.texts labels)]
      ++ Flow.option "default" fallback (quoteText true))
termination_by structural r => r

end

end Node

end ArenaVariations
