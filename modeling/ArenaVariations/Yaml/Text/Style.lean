import ArenaVariations.Yaml.Character
import ArenaVariations.Yaml.Value.OfScalar

/-!
# Styles of written text

Text is written plainly when it reads back as the same text, in single quotes when it would read
as something else, as a literal block when it has more than one line, and in double quotes when
nothing else can show its characters. `TextStyle.choose` makes this choice; the functions after it
write the styles.
-/

namespace ArenaVariations.Yaml

/-- How a text is written. -/
inductive TextStyle where
  | plain
  | single
  | double
  | literal
deriving Repr, DecidableEq, Inhabited

/-- Whether a list has a neighbouring pair with a property. -/
def hasPair {α : Type} (p : α → α → Bool) : List α → Bool
  | a :: b :: rest => p a b || hasPair p (b :: rest)
  | _ => false

/-- Characters that end a line, before line breaks are normalized. -/
def endsLine (c : Char) : Bool :=
  isBreak c || c = '\r' || c = nextLine

/-- Blanks and breaks as they may stand around an indicator. -/
def isGap (c : Char) : Bool :=
  isBlank c || endsLine c

namespace TextStyle

/-- Whether a text would read as null, a boolean or a number when written plainly, or is made of
digits with a leading zero. -/
def readsAsOther (cs : List Char) : Bool :=
  isPaddedDigits cs || match Value.ofPlain? cs with
    | some (.text _) => false
    | _ => true

/-- Whether a character of a text cannot be shown as it is. -/
def hasSpecial (cs : List Char) : Bool :=
  cs.any fun c => !isPrintable c

/-- Whether blanks of a text stand where line folding or the end of a line would lose them: a
space before a break. -/
def hasSpaceBeforeBreak (cs : List Char) : Bool :=
  hasPair (fun a b => a = ' ' && isBreak b) cs

/-- Whether a space follows a break. -/
def hasSpaceAfterBreak (cs : List Char) : Bool :=
  hasPair (fun a b => isBreak a && b = ' ') cs

/-- Whether a text has more than one line. -/
def isMultiline (cs : List Char) : Bool :=
  cs.any endsLine

/-- Whether a text holds a character that would be read as an indicator: one at its start, a
colon before a gap or a number sign after one. -/
def hasIndicator (cs : List Char) : Bool :=
  let atStart := match cs with
    | [] => false
    | c :: rest =>
      ['#', ',', '[', ']', '\x7b', '\x7d', '&', '*', '!', '|', '>', '\'', '"', '%', '@',
        '`'].contains c
        || (['?', '-'].contains c && rest.head?.all isGap)
        || cs.take 3 = ['-', '-', '-'] || cs.take 3 = ['.', '.', '.']
  let colon := hasPair (fun a b => a = ':' && isGap b) cs || cs.getLast? = some ':'
  let comment := hasPair (fun a b => isGap a && b = '#') cs
  atStart || colon || comment

/-- Whether a text may be written plainly. -/
def plainAllowed (cs : List Char) : Bool :=
  let edge (c : Char) : Bool := c = ' ' || isBreak c
  !(cs.head?.any edge || cs.getLast?.any edge || isMultiline cs || hasSpecial cs
    || hasIndicator cs)

/-- Whether a text may be written in single quotes. -/
def singleAllowed (cs : List Char) : Bool :=
  !(hasSpaceAfterBreak cs || hasSpaceBeforeBreak cs || hasSpecial cs)

/-- Whether a text may be written as a block. -/
def literalAllowed (cs : List Char) : Bool :=
  !(cs.getLast? = some ' ' || hasSpaceBeforeBreak cs || hasSpecial cs)

/-- The style of a text, as a key on one line or elsewhere. -/
def choose (asKey : Bool) (cs : List Char) : TextStyle :=
  if asKey && isMultiline cs then double
  else if cs.contains '\n' then if literalAllowed cs then literal else double
  else if !readsAsOther cs && plainAllowed cs then plain
  else if singleAllowed cs then single
  else double

end TextStyle

/-- The escape of a character in double quotes. -/
def escapeChar (c : Char) : List Char :=
  let hex (digits : Nat) : List Char :=
    let ds := (Nat.toDigits 16 c.toNat).map Char.toUpper
    List.replicate (digits - ds.length) '0' ++ ds
  match c with
  | '\x00' => ['\\', '0']
  | '\x07' => ['\\', 'a']
  | '\x08' => ['\\', 'b']
  | '\t' => ['\\', 't']
  | '\n' => ['\\', 'n']
  | '\x0b' => ['\\', 'v']
  | '\x0c' => ['\\', 'f']
  | '\r' => ['\\', 'r']
  | '\x1b' => ['\\', 'e']
  | '"' => ['\\', '"']
  | '\\' => ['\\', '\\']
  | '\u0085' => ['\\', 'N']
  | '\u00a0' => ['\\', '_']
  | '\u2028' => ['\\', 'L']
  | '\u2029' => ['\\', 'P']
  | _ =>
    if c.toNat ≤ 0xff then '\\' :: 'x' :: hex 2
    else if c.toNat ≤ 0xffff then '\\' :: 'u' :: hex 4
    else '\\' :: 'U' :: hex 8

/-- A text in double quotes. -/
def writeDouble (cs : List Char) : List Char :=
  let body := cs.flatMap fun c =>
    if !isPrintable c || isBreak c || c = '"' || c = '\\' then escapeChar c else [c]
  '"' :: body ++ ['"']

/-- The inside of a text in single quotes; lines after the first are indented. -/
def writeSingleBody (indent : Nat) (afterBreak : Bool) : List Char → List Char
  | [] => if afterBreak then List.replicate indent ' ' else []
  | c :: rest =>
    if isBreak c then c :: writeSingleBody indent true rest
    else
      (if afterBreak && c ≠ ' ' then List.replicate indent ' ' else [])
        ++ (if c = '\'' then ['\'', '\''] else [c])
        ++ writeSingleBody indent false rest

/-- A text in single quotes. -/
def writeSingle (indent : Nat) (cs : List Char) : List Char :=
  '\'' :: writeSingleBody indent false cs ++ ['\'']

/-- The header of a literal block: an indentation if the text starts with a space or a break, and
how the breaks at its end are kept. -/
def literalHeader (cs : List Char) : List Char :=
  let indentation :=
    if cs.head?.any fun c => c = ' ' || isBreak c then ['2'] else []
  let chomping := match cs.reverse with
    | [] => ['-']
    | [c] => if isBreak c then ['+'] else ['-']
    | c :: d :: _ => if !isBreak c then ['-'] else if isBreak d then ['+'] else []
  '|' :: indentation ++ chomping

/-- The lines of a literal block. Empty lines are not indented. -/
def writeLines (indent : Nat) (atStart : Bool) : List Char → List Char
  | [] => []
  | c :: rest =>
    if isBreak c then c :: writeLines indent true rest
    else (if atStart then List.replicate indent ' ' else []) ++ c :: writeLines indent false rest

/-- A text as a literal block. -/
def writeLiteral (indent : Nat) (cs : List Char) : List Char :=
  literalHeader cs ++ '\n' :: writeLines indent true cs

/-- Write a text in a style. Lines after the first are indented. -/
def TextStyle.write (style : TextStyle) (indent : Nat) (cs : List Char) : List Char :=
  match style with
  | plain => cs
  | single => writeSingle indent cs
  | double => writeDouble cs
  | literal => writeLiteral indent cs

end ArenaVariations.Yaml
