/-!
# Texts as they are shown

Excerpts of a template are shown between two rules, each line moved to the right, so that they
stand out in a terminal. Reports lose the blanks at their end. A JSON string holds every character
as it is, except for quotes, backslashes and control characters, which are escaped.
-/

namespace ArenaVariations

namespace Text

/-- Split characters at newlines. The text after the last newline is a line of its own. -/
def splitLines : List Char → List (List Char)
  | [] => [[]]
  | c :: cs =>
    if c = '\n' then [] :: splitLines cs
    else match splitLines cs with
      | [] => [[c]]
      | line :: lines => (c :: line) :: lines

/-- A carriage return before the end of a line belongs to the line break. -/
def dropReturn (line : List Char) : List Char :=
  if line.getLast? = some '\r' then line.dropLast else line

/-- The lines of a text, without their line breaks: a newline, or a carriage return and a
newline. Nothing follows a line break at the very end, and a carriage return there is kept. -/
def lines (s : String) : List String :=
  let parts := splitLines s.toList
  let broken := parts.dropLast.map dropReturn
  let tail := match parts.getLast? with
    | none | some [] => []
    | some last => [last]
  (broken ++ tail).map String.ofList

/-- The rule above and below an excerpt. -/
def boxRule : String := "-----------------------------"

/-- A text between two rules, its lines indented by two spaces. -/
def boxed (s : String) : String :=
  boxRule ++ "\n" ++ String.join ((lines s).map fun line => "  " ++ line ++ "\n") ++ boxRule

/-- Characters that only take space: blanks of any width and line breaks. -/
def isSpace (c : Char) : Bool :=
  ('\t' ≤ c ∧ c ≤ '\r') ∨ c = ' ' ∨ c = '\u0085' ∨ c = '\u00a0' ∨ c = '\u1680'
    ∨ ('\u2000' ≤ c ∧ c ≤ '\u200a') ∨ c = '\u2028' ∨ c = '\u2029' ∨ c = '\u202f'
    ∨ c = '\u205f' ∨ c = '\u3000'

/-- A text without the blanks at its end. -/
def trimEnd (s : String) : String :=
  String.ofList (s.toList.reverse.dropWhile isSpace).reverse

/-- How a character appears inside a JSON string. -/
def jsonChar (c : Char) : List Char :=
  match c with
  | '"' => ['\\', '"']
  | '\\' => ['\\', '\\']
  | '\x08' => ['\\', 'b']
  | '\t' => ['\\', 't']
  | '\n' => ['\\', 'n']
  | '\x0c' => ['\\', 'f']
  | '\r' => ['\\', 'r']
  | _ =>
    if c.toNat < 0x20 then
      ['\\', 'u', '0', '0', Nat.digitChar (c.toNat / 16), Nat.digitChar (c.toNat % 16)]
    else [c]

/-- A text as a JSON string. -/
def jsonString (s : String) : String :=
  String.ofList ('"' :: s.toList.flatMap jsonChar ++ ['"'])

end Text

end ArenaVariations
