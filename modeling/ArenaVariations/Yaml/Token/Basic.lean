import ArenaVariations.Yaml.Character

/-!
# Tokens of a YAML text

A `Token` is a piece of YAML syntax: a marker of a document, of a block or of a flow collection,
a property of a node, or a scalar. Block collections begin and end with tokens of their own,
although the text marks them by indentation only. A `Mark` is a place in the text.
-/

namespace ArenaVariations.Yaml

/-- The characters of a tag. Percent escapes spell bytes; in place of escaped bytes that encode no
character there is `none`. -/
abbrev TagChars := List (Option Char)

/-- The handle and the suffix of a tag. A verbatim tag has no handle. -/
structure TagText where
  handle : List Char
  suffix : TagChars
deriving Repr, DecidableEq, Inhabited

/-- A scalar's text, with its line folding and escapes undone. -/
structure ScalarText where
  text : List Char
  /-- The scalar was written without quotes and not as a block. -/
  plain : Bool
deriving Repr, DecidableEq, Inhabited

/-- A piece of YAML syntax. -/
inductive Token where
  | version (major minor : Nat)
  /-- A declared tag handle and what it abbreviates. -/
  | tagHandle (handle : List Char) (expansion : TagChars)
  | documentStart
  | documentEnd
  | blockSequence
  | blockMapping
  | blockEnd
  | flowSequence
  | flowSequenceEnd
  | flowMapping
  | flowMappingEnd
  | blockEntry
  | flowEntry
  | key
  | value
  | aliasTo (name : List Char)
  | anchor (name : List Char)
  | tag (text : TagText)
  | scalar (text : ScalarText)
deriving Repr, DecidableEq, Inhabited

/-- A place in a text: lines passed, and what was passed of the line, in characters and in the
bytes that encode them. -/
structure Mark where
  line : Nat
  column : Nat
  bytes : Nat
deriving Repr, DecidableEq, Inhabited

namespace Mark

/-- The start of a text. -/
def start : Mark := ⟨0, 0, 0⟩

/-- After one more character of the same line. -/
def advance (m : Mark) (c : Char) : Mark :=
  ⟨m.line, m.column + 1, m.bytes + c.utf8Size⟩

/-- After a line break. -/
def nextLine (m : Mark) : Mark :=
  ⟨m.line + 1, 0, 0⟩

end Mark

/-- The rest of a text, and where it starts. -/
structure Place where
  rest : List Char
  mark : Mark
deriving Repr, DecidableEq, Inhabited

namespace Place

/-- After the first `n` characters, none of which is a line break. -/
def drop (p : Place) (n : Nat) : Place :=
  ⟨p.rest.drop n, (p.rest.take n).foldl Mark.advance p.mark⟩

/-- After the characters of this line that satisfy a test. -/
def dropWhile (p : Place) (test : Char → Bool) : Place :=
  p.drop (p.rest.takeWhile test).length

/-- After a comment, if one starts here. -/
def dropComment (p : Place) : Place :=
  match p.rest with
  | '#' :: _ => p.dropWhile fun c => !isBreak c
  | _ => p

/-- After the line break that stands here, if the line ends here. -/
def endLine? (p : Place) : Option Place :=
  match p.rest with
  | [] => some p
  | c :: rest => if isBreak c then some ⟨rest, p.mark.nextLine⟩ else none

end Place

/-- Whether three dashes or three dots stand here, alone or before a blank. -/
def atDocumentMarker (cs : List Char) : Bool :=
  match cs with
  | a :: b :: c :: rest => (a = '-' ∨ a = '.') ∧ b = a ∧ c = a ∧ atBlank rest
  | _ => false

end ArenaVariations.Yaml
