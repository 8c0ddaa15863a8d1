import ArenaVariations.Expansion.Count
import ArenaVariations.Generation

/-!
# Sessions

A session works on several documents and holds several open streams. Productions draw from one
generator and raw enumerations from another, each in the order in which they are asked for their
next variations. An open stream keeps its document even when another one is loaded under the same
name.
-/

namespace ArenaVariations

open ArenaVariations.Random (Generator)

/-- An open stream of a session. -/
inductive Stream where
  | production (p : Production)
  | enumeration (e : Enumeration)
deriving Inhabited

/-- A document and its split form. -/
structure Document where
  tree : Node
  template : Template
deriving Inhabited

/-- The state of a session. -/
structure Session where
  /-- The source of choices for productions. -/
  productions : Generator
  /-- The source of choices for everything else. -/
  expansions : Generator
  documents : List (String × Document)
  streams : List (String × Stream)

/-- What a session can be asked. -/
inductive Step where
  | load (document : String) (tree : Except Error Node)
  | count (document : String)
  | explain (document : String)
  | sample (document : String)
  | produce (stream document : String) (mode : Mode) (amount : Nat)
  | enumerate (stream document : String)
  | pull (stream : String) (amount : Nat)
  | drop (stream : String)
  | choose (sizes : List Nat)
deriving Inhabited

/-- What a session answers. -/
inductive Answer where
  | done
  | failed (error : Error)
  /-- A step that names a document or a stream that is not there. -/
  | unknown
  | count (count : Nat)
  | text (text : String)
  | variation (variation : Variation)
  | finished (pulls : List (Pull Variation))
  | raw (pulls : List (Pull Variation))
  | dropped (existed : Bool)
  | choices (choices : List Nat)
deriving Inhabited

namespace Session

/-- A session with nothing loaded, whose generators have the same seed. -/
def ofSeed (seed : UInt64) : Session :=
  ⟨.ofSeed seed, .ofSeed seed, [], []⟩

/-- Put a value under a name, in the place of an earlier one. -/
def put {α : Type} (name : String) (value : α) (entries : List (String × α)) :
    List (String × α) :=
  (name, value) :: entries.filter fun entry => entry.1 != name

/-- Open a stream of a document. -/
def start (s : Session) (stream document : String) (make : Document → Stream) :
    Answer × Session :=
  match s.documents.lookup document with
  | some d => (.done, { s with streams := put stream (make d) s.streams })
  | none => (.unknown, s)

/-- Draw one number below each of some sizes. A size of zero counts as one. -/
def chooseAll : List Nat → Draw (List Nat)
  | [] => return []
  | size :: sizes => .choose (size - 1) fun i => do return i.val :: (← chooseAll sizes)

/-- Answer a step. -/
def step (s : Session) : Step → Answer × Session
  | .load name tree =>
    match tree with
    | .error e => (.failed e, s)
    | .ok tree =>
      match Template.ofDocument tree with
      | .error fault => (.failed (.ofFault fault), s)
      | .ok template => (.done, { s with documents := put name ⟨tree, template⟩ s.documents })
  | .count name =>
    match s.documents.lookup name with
    | some d => (.count d.tree.count, s)
    | none => (.unknown, s)
  | .explain name =>
    match s.documents.lookup name with
    | some d =>
      match d.tree.explain with
      | .ok text => (.text text, s)
      | .error e => (.failed e, s)
    | none => (.unknown, s)
  | .sample name =>
    match s.documents.lookup name with
    | some d =>
      let (result, g) := Draw.run d.tree.sample.run s.expansions
      let s := { s with expansions := g }
      match result with
      | .ok v => (.variation v, s)
      | .error e => (.failed e, s)
    | none => (.unknown, s)
  | .produce stream name mode amount =>
    s.start stream name fun d => .production (.ofTemplate d.template mode amount)
  | .enumerate stream name => s.start stream name fun d => .enumeration (.ofNode d.tree)
  | .pull stream amount =>
    match s.streams.lookup stream with
    | none => (.unknown, s)
    | some (.production p) =>
      let ((pulls, p), g) := (Draw.steps Production.next amount p).run s.productions
      (.finished pulls, { s with
        productions := g, streams := put stream (.production p) s.streams })
    | some (.enumeration e) =>
      let ((pulls, e), g) := (Draw.steps Enumeration.next amount e).run s.expansions
      (.raw pulls, { s with
        expansions := g, streams := put stream (.enumeration e) s.streams })
  | .drop stream =>
    (.dropped (s.streams.lookup stream).isSome,
      { s with streams := s.streams.filter fun entry => entry.1 != stream })
  | .choose sizes =>
    let (choices, g) := (chooseAll sizes).run s.expansions
    (.choices choices, { s with expansions := g })

/-- Answer steps one after the other. -/
def answers (s : Session) : List Step → List Answer
  | [] => []
  | step :: steps =>
    let (answer, s) := s.step step
    answer :: s.answers steps

end Session

end ArenaVariations
