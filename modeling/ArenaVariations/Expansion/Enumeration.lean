import ArenaVariations.Expansion.Sample

/-!
# Enumerating variations

Variations are enumerated one at a time. A `Cursor` remembers how far the enumeration of a tree
has come, and `Node.advance` gives the next variation and the cursor behind it. Nothing is drawn
before a variation is asked for.

A container runs through all combinations of its children's variations, and its last child varies
fastest. It holds the cursors and the current variations of its children. Whenever a child moves
on, those after it start afresh: a restriction, which samples, draws anew. If one of those then
has no variation at all, or fails, the container is done.
-/

namespace ArenaVariations

/-- What a step of an enumeration gives. A failure need not be the end of it. -/
inductive Pull (α : Type) where
  | done
  | failed (error : Error)
  | item (value : α)
deriving Inhabited

namespace Pull

/-- The result of a computation as a step. -/
def ofExcept {α : Type} : Except Error α → Pull α
  | .ok a => item a
  | .error e => failed e

/-- Change the item of a step. -/
def map {α β : Type} (f : α → β) : Pull α → Pull β
  | done => done
  | failed e => failed e
  | item a => item (f a)

/-- Change the item of a step, or fail. -/
def bind {α β : Type} (p : Pull α) (f : α → Except Error β) : Pull β :=
  match p with
  | done => done
  | failed e => failed e
  | item a => ofExcept (f a)

end Pull

/-- How far the enumeration of a tree has come. -/
inductive Cursor where
  | fresh
  /-- Behind so many variations of a list or a restriction. -/
  | behind (amount : Nat)
  /-- Within a container: the cursors and the current variations of its children. -/
  | within (frames : List (Cursor × Variation))
  | finished
deriving Inhabited

/-- The cursor of a container's child and its current variation. -/
abbrev Frame := Cursor × Variation

namespace Cursor

/-- The number of variations before the cursor of a list or a restriction. -/
def position : Cursor → Nat
  | behind amount => amount
  | _ => 0

end Cursor

/-- What moving a container's children on gives. -/
inductive Turn where
  | moved (frames : List Frame)
  /-- There is no further combination. -/
  | exhausted
  /-- The container is done, because a child that started afresh has no variation. -/
  | stopped
  | failed (error : Error)
deriving Inhabited

namespace Turn

/-- Add the frame of a child in front of those that moved. -/
def cons (frame : Frame) : Turn → Turn
  | moved frames => moved (frame :: frames)
  | other => other

/-- The step of a container whose children took a turn. -/
def pull (form : Form) : Turn → Pull Variation × Cursor
  | moved frames => (.item (.gather form (frames.map Prod.snd)), .within frames)
  | exhausted | stopped => (.done, .finished)
  | failed e => (.failed e, .finished)

end Turn

namespace Node

/-- The step of a tree that has a single variation, or fails. -/
def once (result : Except Error Variation) : Cursor → Pull Variation × Cursor
  | .fresh => (.ofExcept result, .finished)
  | _ => (.done, .finished)

/-- The step of a list of variations. -/
def step (variations : List Variation) (cursor : Cursor) : Pull Variation × Cursor :=
  match variations[cursor.position]? with
  | some v => (.item v, .behind (cursor.position + 1))
  | none => (.done, .finished)

mutual

/-- The variation at a cursor, and the cursor behind it. -/
def advance : Node → Cursor → Draw (Pull Variation × Cursor)
  | n@(scalar _), cursor | n@(interval _), cursor | n@(tagged _), cursor =>
    return once (.ok (.unlabelled n)) cursor
  | conditional source, cursor => return once (.ok (.unlabelled (placeholder source))) cursor
  | labelRule _, cursor => return once (.error (.internal .labelRuleIterated)) cursor
  | placeholder _, cursor => return once (.error (.internal .placeholderExpanded)) cursor
  | n@(choice _), cursor | n@(labelledChoice _), cursor | n@(palette _), cursor
  | n@(scaled ..), cursor =>
    match cursor with
    | .finished => return (.done, .finished)
    | _ => return step n.alternatives cursor
  | repetition amount value, cursor => do
    let (pull, cursor) ← value.advance cursor
    return (pull.map (Variation.repeated amount), cursor)
  | restriction amount item, cursor =>
    match cursor with
    | .finished => return (.done, .finished)
    | _ =>
      if cursor.position < amount.toNat then do
        return (.ofExcept (← item.sample.run), .behind (cursor.position + 1))
      else return (.done, .finished)
  | container form children, cursor =>
    match cursor with
    | .fresh => return (← startAll children).pull form
    | .within frames => return (← advanceAll children frames).pull form
    | _ => return (.done, .finished)
termination_by structural n => n

/-- Start the enumerations of trees, and take the first variation of each. -/
def startAll : List Node → Draw Turn
  | [] => return .moved []
  | n :: ns => do
    match ← n.advance .fresh with
    | (.item v, cursor) => return (← startAll ns).cons (cursor, v)
    | (.failed e, _) => return .failed e
    | (.done, _) => return .stopped
termination_by structural ns => ns

/-- Move the last tree on that has a further variation, and start those after it afresh. -/
def advanceAll : List Node → List Frame → Draw Turn
  | n :: ns, frame :: frames => do
    match ← advanceAll ns frames with
    | .exhausted =>
      match ← n.advance frame.1 with
      | (.item v, cursor) => return (← startAll ns).cons (cursor, v)
      | (.failed e, _) => return .failed e
      | (.done, _) => return .exhausted
    | turn => return turn.cons frame
  | _, _ => return .exhausted
termination_by structural ns => ns

end

end Node

/-- An enumeration that is under way. -/
structure Enumeration where
  node : Node
  cursor : Cursor
deriving Inhabited

namespace Enumeration

/-- The enumeration of a tree, before its first variation. -/
def ofNode (n : Node) : Enumeration := ⟨n, .fresh⟩

/-- The next variation. -/
def next (e : Enumeration) : Draw (Pull Variation × Enumeration) := do
  let (pull, cursor) ← e.node.advance e.cursor
  return (pull, ⟨e.node, cursor⟩)

end Enumeration

end ArenaVariations
