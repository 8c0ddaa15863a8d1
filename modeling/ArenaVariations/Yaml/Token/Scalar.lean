import ArenaVariations.Decimal.Reading
import ArenaVariations.Yaml.Token.Folding

/-!
# Scalars in a text

Each style of scalar is read by one pass over the characters that follow. A plain scalar ends
where its line can no longer be part of it: at a comment, at a colon before a blank, at a flow
indicator inside a flow collection, at a document marker, or at a line that is not indented more
than the collection around it. A quoted scalar ends at its quote. A block scalar ends at the first
line that is indented less than its first line.
-/

namespace ArenaVariations.Yaml

/-- Where a pass over a flow scalar stands: at the first character after a gap, inside a word, or
among blanks and line breaks. -/
inductive WordPhase where
  | wordStart
  | word
  | gap
deriving Repr, DecidableEq

/-- Read a plain scalar. Outside of flow collections its lines must reach the column `indent`.
The folding that is left tells whether line breaks follow the last word. -/
def scanPlain (flow : Bool) (indent : Int) (phase : WordPhase) (f : Folding) (m : Mark) :
    List Char → Option (Folding × Place)
  | [] => some (f, ⟨[], m⟩)
  | c :: rest =>
    if isBlank c then
      if f.broken ∧ m.column < indent ∧ c = '\t' then none
      else scanPlain flow indent .gap (f.addBlank c) (m.advance c) rest
    else if isBreak c then
      scanPlain flow indent .gap (f.addBreak c) m.nextLine rest
    else if phase = .gap ∧ !flow ∧ m.column < indent then some (f, ⟨c :: rest, m⟩)
    else if phase ≠ .word ∧ (c = '#' ∨ (m.column = 0 ∧ atDocumentMarker (c :: rest))) then
      some (f, ⟨c :: rest, m⟩)
    else if flow ∧ c = ':' ∧ (rest.head?.any fun d => d = '?' || isFlowIndicator d) then none
    else if (c = ':' ∧ atBlank rest) ∨ (flow ∧ isFlowIndicator c) then some (f, ⟨c :: rest, m⟩)
    else scanPlain flow indent .word (f.join.push c) (m.advance c) rest

/-- Where a pass over a quoted scalar stands. -/
inductive QuotePhase where
  | words (phase : WordPhase)
  /-- After a backslash. -/
  | escape
  /-- Inside a hexadecimal escape, with the digits still to come and the value so far. -/
  | hex (digits value : Nat)
deriving Repr, DecidableEq

/-- The character that a one-letter escape stands for. -/
def simpleEscape? : Char → Option Char
  | '0' => some '\x00'
  | 'a' => some '\x07'
  | 'b' => some '\x08'
  | 't' | '\t' => some '\t'
  | 'n' => some '\n'
  | 'v' => some '\x0b'
  | 'f' => some '\x0c'
  | 'r' => some '\r'
  | 'e' => some '\x1b'
  | ' ' => some ' '
  | '"' => some '"'
  | '/' => some '/'
  | '\\' => some '\\'
  | 'N' => some nextLine
  | '_' => some '\u00a0'
  | 'L' => some '\u2028'
  | 'P' => some '\u2029'
  | _ => none

/-- How many hexadecimal digits follow the letter of an escape. -/
def hexEscape? : Char → Option Nat
  | 'x' => some 2
  | 'u' => some 4
  | 'U' => some 8
  | _ => none

/-- Whether a character is a hexadecimal digit. -/
def isHex (c : Char) : Bool :=
  c.isDigit || ('a' ≤ c && c ≤ 'f') || ('A' ≤ c && c ≤ 'F')

/-- Read a quoted scalar up to its closing quote, which is passed. -/
def scanQuoted (double : Bool) (phase : QuotePhase) (f : Folding) (m : Mark) :
    List Char → Option (List Char × Place)
  | [] => none
  | c :: rest =>
    match phase with
    | .escape =>
      if isBreak c then scanQuoted double (.words .gap) f.escapeBreak m.nextLine rest
      else match simpleEscape? c, hexEscape? c with
        | some d, _ => scanQuoted double (.words .word) (f.push d) (m.advance c) rest
        | none, some digits => scanQuoted double (.hex digits 0) f (m.advance c) rest
        | none, none => none
    | .hex digits value =>
      let value := 16 * value + natOfDigits.digitValue c
      if !isHex c then none
      else if 1 < digits then scanQuoted double (.hex (digits - 1) value) f (m.advance c) rest
      else if value.isValidChar then
        scanQuoted double (.words .word) (f.push (Char.ofNat value)) (m.advance c) rest
      else none
    | .words phase =>
      if isBlank c then scanQuoted double (.words .gap) (f.addBlank c) (m.advance c) rest
      else if isBreak c then scanQuoted double (.words .gap) (f.addBreak c) m.nextLine rest
      else
        let g := if phase = .gap then f.join else f
        if phase ≠ .word ∧ m.column = 0 ∧ atDocumentMarker (c :: rest) then none
        else if double ∧ c = '"' then some (g.result, ⟨rest, m.advance c⟩)
        else if double ∧ c = '\\' then scanQuoted double .escape g (m.advance c) rest
        else if !double ∧ c = '\'' then
          match rest with
          | '\'' :: rest =>
            scanQuoted double (.words .word) (g.push '\'') ((m.advance c).advance '\'') rest
          | _ => some (g.result, ⟨rest, m.advance c⟩)
        else scanQuoted double (.words .word) (g.push c) (m.advance c) rest

/-- What becomes of the line breaks at the end of a block scalar: none is kept, one, or all. -/
inductive Chomping where
  | strip
  | clip
  | keep
deriving Repr, DecidableEq, Inhabited

/-- The header of a block scalar. -/
structure BlockHeader where
  literal : Bool
  chomping : Chomping
  /-- Additional indentation, if it is given. -/
  increment : Option Nat
deriving Repr, DecidableEq, Inhabited

/-- The chomping that a sign asks for. -/
def chompingOf? : Char → Option Chomping
  | '+' => some .keep
  | '-' => some .strip
  | _ => none

/-- Read the indicators after the bar or the angle: a sign and a digit from one on, in either
order and each optional. The digit zero is refused. -/
def blockHeader? (literal : Bool) (cs : List Char) : Option (BlockHeader × Nat) :=
  let digit (c : Char) : Option Nat := if c.isDigit then some (c.toNat - '0'.toNat) else none
  match cs with
  | [] => some (⟨literal, .clip, none⟩, 0)
  | c :: rest =>
    match chompingOf? c, digit c with
    | some chomping, _ =>
      match rest.head?.bind digit with
      | some 0 => none
      | some n => some (⟨literal, chomping, some n⟩, 2)
      | none => some (⟨literal, chomping, none⟩, 1)
    | none, some 0 => none
    | none, some n =>
      match rest.head?.bind chompingOf? with
      | some chomping => some (⟨literal, chomping, some n⟩, 2)
      | none => some (⟨literal, .clip, some n⟩, 1)
    | none, none => some (⟨literal, .clip, none⟩, 0)

/-- The state of a pass over a block scalar. Texts are held in reverse. -/
structure BlockState where
  text : List Char
  /-- The column that its lines start at, once it is known. -/
  indent : Option Nat
  /-- The deepest line of blanks so far. -/
  deepest : Nat
  /-- The break that ended the last line with text. -/
  lastBreak : Option Char
  /-- The breaks of the empty lines since then. -/
  emptyLines : List Char
  /-- The last line with text started with a blank. -/
  afterBlank : Bool
  /-- The pass is inside the text of a line. -/
  inLine : Bool
deriving Repr, DecidableEq, Inhabited

namespace BlockState

/-- Whether a line may still start with an indentation space at this column. -/
def indents (s : BlockState) (column : Nat) : Bool :=
  s.indent.all fun n => column < n

/-- Fix the indentation at the first line with text: that of the deepest line so far, but more
than that of the collection around the scalar. -/
def settle (s : BlockState) (outer : Int) : BlockState :=
  match s.indent with
  | some _ => s
  | none => { s with indent := some (max (max s.deepest (outer + 1).toNat) 1) }

/-- Begin a line with text. In a folded scalar, the break between two lines that do not start
with blanks is folded. -/
def beginLine (s : BlockState) (literal : Bool) (first : Char) : BlockState :=
  let folds := !literal && s.lastBreak = some '\n' && !s.afterBlank && !isBlank first
  let joined :=
    if folds then (if s.emptyLines.isEmpty then [' '] else []) else s.lastBreak.toList
  { s with
    text := first :: (s.emptyLines ++ joined ++ s.text), lastBreak := none, emptyLines := [],
    afterBlank := isBlank first, inLine := true }

/-- The text, with the breaks at its end that are kept. -/
def result (s : BlockState) (chomping : Chomping) : List Char :=
  (match chomping with
    | .strip => s.text
    | .clip => s.lastBreak.toList ++ s.text
    | .keep => s.emptyLines ++ s.lastBreak.toList ++ s.text).reverse

end BlockState

/-- Read the lines of a block scalar. `outer` is the column of the collection around it. A tab
among the indentation is refused. -/
def scanBlock (header : BlockHeader) (outer : Int) (s : BlockState) (m : Mark) :
    List Char → Option (List Char × Place)
  | [] => some (s.result header.chomping, ⟨[], m⟩)
  | c :: rest =>
    if s.inLine then
      if isBreak c then
        scanBlock header outer { s with inLine := false, lastBreak := some c } m.nextLine rest
      else scanBlock header outer { s with text := c :: s.text } (m.advance c) rest
    else if c = ' ' ∧ s.indents m.column then scanBlock header outer s (m.advance c) rest
    else if c = '\t' ∧ s.indents m.column then none
    else
      let s := { s with deepest := max s.deepest m.column }
      if isBreak c then
        scanBlock header outer { s with emptyLines := c :: s.emptyLines } m.nextLine rest
      else
        let s := s.settle outer
        if s.indent = some m.column then
          scanBlock header outer (s.beginLine header.literal c) (m.advance c) rest
        else some (s.result header.chomping, ⟨c :: rest, m⟩)

end ArenaVariations.Yaml
