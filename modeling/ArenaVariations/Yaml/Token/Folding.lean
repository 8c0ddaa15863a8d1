import ArenaVariations.Yaml.Token.Basic

/-!
# Line folding

Blanks and line breaks between two words of a scalar are kept back until the next word shows what
they stand for. On one line they stand for themselves. A single newline stands for a space, and
of several newlines the first is dropped. A separator is never dropped.
-/

namespace ArenaVariations.Yaml

/-- The text of a scalar up to some place. All texts are held in reverse. -/
structure Folding where
  text : List Char
  /-- Blanks since the last word, while no line break followed them. -/
  blanks : List Char
  /-- A line break, or an escaped one, was passed since the last word. -/
  broken : Bool
  firstBreak : Option Char
  moreBreaks : List Char
deriving Repr, DecidableEq, Inhabited

namespace Folding

/-- Nothing read so far. -/
def empty : Folding := ⟨[], [], false, none, []⟩

/-- Pass a blank; after a line break it is indentation and dropped. -/
def addBlank (f : Folding) (c : Char) : Folding :=
  if f.broken then f else { f with blanks := c :: f.blanks }

/-- Pass a line break. The blanks before it are dropped. -/
def addBreak (f : Folding) (c : Char) : Folding :=
  if f.broken then { f with moreBreaks := c :: f.moreBreaks }
  else { f with blanks := [], broken := true, firstBreak := some c }

/-- Pass an escaped line break, which stands for nothing. -/
def escapeBreak (f : Folding) : Folding :=
  { f with broken := true }

/-- Add what the blanks and line breaks since the last word stand for. -/
def join (f : Folding) : Folding :=
  let text :=
    if f.broken then
      match f.firstBreak with
      | some '\n' => if f.moreBreaks.isEmpty then ' ' :: f.text else f.moreBreaks ++ f.text
      | first => f.moreBreaks ++ first.toList ++ f.text
    else f.blanks ++ f.text
  { empty with text }

/-- Add a character of a word. -/
def push (f : Folding) (c : Char) : Folding :=
  { f with text := c :: f.text }

/-- The text that was added. -/
def result (f : Folding) : List Char :=
  f.text.reverse

end Folding

end ArenaVariations.Yaml
