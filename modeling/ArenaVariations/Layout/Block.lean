import ArenaVariations.Layout.Flow

/-!
# Trees as YAML documents

A tree is laid out before it is written: `Layout.ofNode` decides what stays on a line and what
becomes a block, and `Layout.render` writes a layout with its indentation. On one line stay
scalars, ranges, lists of such leaves, vectors and colors, empty containers, and procedural tags
whose plain view does. A block below a list dash starts on the line of the dash, in the place of
its first line's indentation, unless a tag stands there.
-/

namespace ArenaVariations

/-- How a tree is laid out. -/
inductive Layout where
  /-- On the line of its key or dash. -/
  | line (text : String)
  /-- Items below a tag, or below the key or dash itself. -/
  | items (tag : Option String) (items : List Layout)
  /-- Entries below a tag, or below the key or dash itself. -/
  | entries (tag : Option String) (entries : List (String × Layout))
deriving Inhabited

namespace Node

/-- Leaves stay on a line with others. -/
def isLeaf : Node → Bool
  | scalar _ | interval _ | tagged _ => true
  | _ => false

/-- Whether a tree that is no procedural tag is written on one line. -/
def isInline : Node → Bool
  | scalar _ | interval _ | tagged _ => true
  | container .sequence items => items.all isLeaf
  | container (.mapping keys) _ => keys.isEmpty
  | container (.record kind _ names) _ => kind.isFlow || names.isEmpty
  | choice options => options.all isLeaf
  | palette _ => true
  | _ => false

end Node

namespace Layout

/-- Texts on one line. -/
def texts (ss : List String) : Layout := line (Flow.texts ss)

/-- An entry that may be left out. -/
def option {α : Type} (name : String) (value : Option α) (lay : α → Layout) :
    List (String × Layout) :=
  value.toList.map fun v => (name, lay v)

/-- A list of trees below a key: on one line if they all are leaves. -/
def list (ns : List Node) (layouts : List Layout) : Writing Layout :=
  if ns.all Node.isLeaf then (Node.toFlow (.sequence ns)).map line
  else return items none layouts

/-- The references of a condition. -/
def references (c : Condition Node) : Layout :=
  line (if c.multi then Flow.texts c.references else quoteText true (c.references.headD ""))

mutual

/-- Lay a tree out. -/
def ofNode : Node → Writing Layout
  | .placeholder _ => throw placeholderWritten
  | n@(.scalar _) | n@(.interval _) | n@(.tagged _) | n@(.palette _) => n.toFlow.map line
  | n@(.container .sequence ns) =>
    if n.isInline then n.toFlow.map line else return items none (← ofNodes ns)
  | n@(.container (.mapping keys) ns) =>
    if n.isInline then n.toFlow.map line
    else return entries none ((keys.map (Scalar.write false)).zip (← ofNodes ns))
  | n@(.container (.record kind _ names) ns) =>
    if n.isInline then n.toFlow.map line
    else
      return entries (some kind.tag) (← pickAll (pickOrdered kind.fields names (eachOfNodes ns)))
  | n@(.choice options) =>
    if n.isInline then n.toFlow.map line
    else return items (some "ProcList") (← ofNodes options)
  | .labelledChoice options => return items (some "ProcListLabelled") (← ofOptions options)
  | .scaled base scales labels => do
    let base ← ofOption base
    return entries (some "ProcVector3Scaled") (option "base" base id
      ++ [("scales", line (Flow.list (scales.map (Scalar.write true))))]
      ++ option "labels" labels texts)
  | .repetition amount value =>
    return entries (some "ProcRepeatChoice")
      [("amount", line (toString amount.toInt64.toInt)), ("value", ← ofNode value)]
  | .restriction amount item =>
    return entries (some "ProcRestrictCombinations")
      [("amount", line (toString amount.toInt64.toInt)), ("item", ← ofNode item)]
  | .conditional source => ofConditional source
  | .labelRule rule => ofRule rule
termination_by structural n => n

/-- Lay the trees of a list out. -/
def ofNodes : List Node → Writing (List Layout)
  | [] => return []
  | n :: ns => return (← ofNode n) :: (← ofNodes ns)
termination_by structural ns => ns

/-- Lay each tree of a list out, with a result of its own. -/
def eachOfNodes : List Node → List (Writing Layout)
  | [] => []
  | n :: ns => ofNode n :: eachOfNodes ns
termination_by structural ns => ns

/-- Lay labelled options out. -/
def ofOptions : List (Node × String) → Writing (List Layout)
  | [] => return []
  | o :: os => return (← ofLabelled o) :: (← ofOptions os)
termination_by structural os => os

/-- Lay a labelled option out. -/
def ofLabelled : Node × String → Writing Layout
  | (value, label) =>
    return entries none [("value", ← ofNode value), ("label", line (quoteText true label))]
termination_by structural o => o

/-- Lay an optional tree out. -/
def ofOption : Option Node → Writing (Option Layout)
  | none => return none
  | some n => return some (← ofNode n)
termination_by structural o => o

/-- Lay the references and cases of a condition out. -/
def ofCondition : Condition Node → Writing (List (String × Layout))
  | ⟨names, multi, cases⟩ => do
    let layouts ← ofNodes cases
    return [("variable", references ⟨names, multi, []⟩), ("cases", ← list cases layouts)]
termination_by structural c => c

/-- Lay a conditional out. -/
def ofConditional : Conditional Node → Writing Layout
  | ⟨_, condition, outcomes, fallback, labels, fallbackLabel⟩ => do
    let condition ← ofCondition condition
    let layouts ← ofNodes outcomes
    let fallback ← ofOption fallback
    return entries (some "ProcIf") (condition ++ [("then", ← list outcomes layouts)]
      ++ option "default" fallback id
      ++ option "labels" labels texts
      ++ option "default_label" fallbackLabel fun l => line (quoteText true l))
termination_by structural c => c

/-- Lay a label rule out. -/
def ofRule : LabelRule Node → Writing Layout
  | ⟨condition, labels, fallback⟩ => do
    let condition ← ofCondition condition
    return entries (some "ProcIfLabels") (condition ++ [("labels", texts labels)]
      ++ option "default" fallback fun l => line (quoteText true l))
termination_by structural r => r

end

/-- The spaces before the text of a line. -/
def margin (indent : Nat) : List Char :=
  List.replicate indent ' '

mutual

/-- Write the lines of a block at an indentation. -/
def renderBody (indent : Nat) : Layout → List Char
  | line _ => []
  | items _ layouts => renderItems indent layouts
  | entries _ fields => renderEntries indent fields
termination_by structural l => l

/-- Write the items of a list. -/
def renderItems (indent : Nat) : List Layout → List Char
  | [] => []
  | l :: ls =>
    margin indent ++ '-' :: (match l with
      | line text => ' ' :: text.toList ++ ['\n']
      | items (some tag) _ | entries (some tag) _ =>
        ' ' :: '!' :: tag.toList ++ '\n' :: renderBody (indent + 2) l
      | items none _ | entries none _ =>
        -- the dash takes the place of the first line's indentation
        ' ' :: (renderBody (indent + 2) l).drop (indent + 2))
    ++ renderItems indent ls
termination_by structural ls => ls

/-- Write the entries of a mapping. -/
def renderEntries (indent : Nat) : List (String × Layout) → List Char
  | [] => []
  | e :: es => renderEntry indent e ++ renderEntries indent es
termination_by structural es => es

/-- Write an entry of a mapping. -/
def renderEntry (indent : Nat) : String × Layout → List Char
  | (key, l) =>
    margin indent ++ key.toList ++ ':' :: (match l with
      | line text => ' ' :: text.toList ++ ['\n']
      | items (some tag) _ | entries (some tag) _ =>
        ' ' :: '!' :: tag.toList ++ '\n' :: renderBody (indent + 2) l
      | items none _ | entries none _ => '\n' :: renderBody (indent + 2) l)
termination_by structural e => e

end

/-- Write a layout as a document. -/
def render (l : Layout) : String :=
  String.ofList (match l with
    | line text => text.toList ++ ['\n']
    | items (some tag) _ | entries (some tag) _ => '!' :: tag.toList ++ '\n' :: renderBody 0 l
    | items none _ | entries none _ => renderBody 0 l)

end Layout

/-- Write a tree as a YAML document. -/
def Node.toYaml (n : Node) : Writing String :=
  (Layout.ofNode n).map Layout.render

end ArenaVariations
