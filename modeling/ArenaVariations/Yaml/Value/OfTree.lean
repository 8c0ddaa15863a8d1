import ArenaVariations.Yaml.Tree
import ArenaVariations.Yaml.Value.OfScalar

/-!
# From syntax trees to values

Aliases are expanded in two steps. `Tree.link` walks a document in order and replaces the name in
each alias by the number of the anchor it refers to: an anchor gets the number of different names
before it, so an anchor whose name was used before may share the number of a later one, and the
last anchor with a number is its target. `Tree.value` then copies targets. Collections may be
nested to a depth of 128, and aliases may be followed a hundred times as often as the document has
events; this stops documents that refer to themselves.
-/

namespace ArenaVariations.Yaml

/-- What stands at an anchor. -/
structure AnchorTarget where
  number : Nat
  /-- How many anchors come before this one. -/
  order : Nat
  tree : Tree Nat
deriving Inhabited

/-- The anchors of the document up to some place. -/
structure Anchors where
  numbers : List (List Char × Nat)
  passed : Nat
  targets : List AnchorTarget
deriving Inhabited

namespace Anchors

/-- No anchors. -/
def empty : Anchors := ⟨[], 0, []⟩

/-- Pass an anchor of some name. -/
def pass (a : Anchors) (name : List Char) : Anchors :=
  let others := a.numbers.filter fun entry => entry.1 ≠ name
  { a with numbers := (name, a.numbers.length) :: others, passed := a.passed + 1 }

/-- The target of a number: what stands at the last anchor that has it. -/
def target? (a : Anchors) (number : Nat) : Option (Tree Nat) :=
  let candidates := a.targets.filter fun t => t.number = number
  let last := candidates.foldl (fun best t => max best t.order) 0
  (candidates.find? fun t => t.order = last).map (·.tree)

end Anchors

/-- Drop an exclamation mark in front of other characters. -/
def dropMark : TagChars → TagChars
  | some '!' :: c :: cs => c :: cs
  | cs => cs

/-- The name of an application's tag: what follows the exclamation mark that starts the tag, or two
of them. A mark that nothing follows is a name. A tag of which some bytes encode no character names
nothing. -/
def applicationTag? : Option TagChars → Option String
  | some (some '!' :: rest) =>
    ((dropMark (dropMark (some '!' :: rest))).mapM id).map String.ofList
  | _ => none

namespace Tree

/-- Run a linking step for a node and remember the node if it has an anchor. -/
def anchored (ps : Properties) (link : StateT Anchors Option (Tree Nat)) :
    StateT Anchors Option (Tree Nat) := do
  match ps.anchor with
  | none => link
  | some name =>
    let before ← get
    set (before.pass name)
    let tree ← link
    modify fun a =>
      { a with targets := ⟨before.numbers.length, before.passed, tree⟩ :: a.targets }
    return tree

mutual

/-- Replace the names in aliases by the numbers of their anchors. An alias before its anchor is
refused. -/
def link : Tree (List Char) → StateT Anchors Option (Tree Nat)
  | aliasTo name => do
    let number ← ((← get).numbers.lookup name : Option Nat)
    return aliasTo number
  | scalar ps text => anchored ps (return scalar ps text)
  | sequence ps items => anchored ps (return sequence ps (← linkItems items))
  | mapping ps entries => anchored ps (return mapping ps (← linkEntries entries))

/-- Link the trees of a list in order. -/
def linkItems : List (Tree (List Char)) → StateT Anchors Option (List (Tree Nat))
  | [] => return []
  | t :: ts => return (← link t) :: (← linkItems ts)

/-- Link the entries of a mapping in order. -/
def linkEntries :
    List (Tree (List Char) × Tree (List Char)) → StateT Anchors Option (List (Tree Nat × Tree Nat))
  | [] => return []
  | e :: es => return (← linkEntry e) :: (← linkEntries es)

/-- Link a key and its value. -/
def linkEntry : Tree (List Char) × Tree (List Char) → StateT Anchors Option (Tree Nat × Tree Nat)
  | (k, v) => return (← link k, ← link v)

end

mutual

/-- How many events a tree is made of: collections have a start and an end. -/
def events {ρ : Type} : Tree ρ → Nat
  | aliasTo _ => 1
  | scalar .. => 1
  | sequence _ items => 2 + eventsOfItems items
  | mapping _ entries => 2 + eventsOfEntries entries

/-- How many events the trees of a list are made of. -/
def eventsOfItems {ρ : Type} : List (Tree ρ) → Nat
  | [] => 0
  | t :: ts => t.events + eventsOfItems ts

/-- How many events the entries of a mapping are made of. -/
def eventsOfEntries {ρ : Type} : List (Tree ρ × Tree ρ) → Nat
  | [] => 0
  | e :: es => eventsOfEntry e + eventsOfEntries es

/-- How many events a key and its value are made of. -/
def eventsOfEntry {ρ : Type} : Tree ρ × Tree ρ → Nat
  | (k, v) => k.events + v.events

end

/-- The greatest depth to which collections may be nested. -/
def depthLimit : Nat := 128

/-- Expansion counts down how many more aliases may be followed. -/
abbrev Expansion := StateT Nat Option

/-- The tree that an alias refers to; other trees stand for themselves. -/
def follow (anchors : Anchors) : Tree Nat → Expansion (Tree Nat)
  | aliasTo number => do
    let left ← get
    if left = 0 then failure
    set (left - 1)
    (anchors.target? number : Option (Tree Nat))
  | tree => return tree

/-- The value of a scalar with its tag. An application's tag forces no type, even if it names
nothing. -/
def scalarValue? (tag : Option TagChars) (text : ScalarText) : Option Value :=
  let untagged? := Value.ofUntagged? text.plain text.text
  match applicationTag? tag, tag with
  | some name, _ => untagged?.map (Value.tagged name)
  | none, some (some '!' :: _) => untagged?
  | none, some t => Value.ofTyped? (.ofTag t) text.text
  | none, none => untagged?

/-- A collection under its tag. -/
def collectionValue (tag : Option TagChars) (value : Value) : Value :=
  match applicationTag? tag with
  | some name => .tagged name value
  | none => value

/-- Read the entries of a mapping. Every key must differ from those before it. -/
def entryValues (value : Tree Nat → Expansion Value) (before : List (Value × Value)) :
    List (Tree Nat × Tree Nat) → Expansion (List (Value × Value))
  | [] => return before.reverse
  | (k, v) :: rest => do
    let key ← value k
    if before.any fun e => e.1.same key then failure
    let v ← value v
    entryValues value ((key, v) :: before) rest

/-- The value of a tree whose collections are nested to no more than a given depth. -/
def value (anchors : Anchors) : Nat → Tree Nat → Expansion Value
  | depth, tree => do
    match ← follow anchors tree with
    | aliasTo _ => failure
    | scalar ps text => (scalarValue? ps.tag text : Option Value)
    | sequence ps items =>
      match depth with
      | 0 => failure
      | depth + 1 =>
        return collectionValue ps.tag (.sequence (← items.mapM (value anchors depth)))
    | mapping ps entries =>
      match depth with
      | 0 => failure
      | depth + 1 =>
        return collectionValue ps.tag
          (.mapping (← entryValues (value anchors depth) [] entries))

/-- The value of a document. -/
def documentValue? (tree : Tree (List Char)) : Option Value := do
  let (linked, anchors) ← tree.link.run .empty
  let (value, _) ← (linked.value anchors depthLimit).run (100 * linked.events)
  return value

end Tree

/-- The value that a YAML text stands for. A text without a document stands for null. -/
def Value.ofChars? (cs : List Char) : Option Value := do
  let tokens ← Token.ofChars? cs
  match ← Tree.ofTokens? tokens with
  | none => return .null
  | some tree => tree.documentValue?

end ArenaVariations.Yaml
