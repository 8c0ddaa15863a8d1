/-!
# Character classes of YAML

Line breaks are the newline, the carriage return, the next-line character and the two Unicode
separators. `normalizeBreaks` turns the first three, and a carriage return with its newline,
into a newline, which is how scalars show them; the separators stay as they are. After that only
a newline and a separator end a line.
-/

namespace ArenaVariations.Yaml

/-- The next-line control character. -/
def nextLine : Char := '\u0085'

/-- The mark that may open a Unicode text. -/
def byteOrderMark : Char := '\ufeff'

/-- The line and paragraph separators. -/
def isSeparator (c : Char) : Bool :=
  c = '\u2028' ∨ c = '\u2029'

/-- Characters that end a line of a text with normalized line breaks. -/
def isBreak (c : Char) : Bool :=
  c = '\n' ∨ isSeparator c

/-- Spaces and tabs. -/
def isBlank (c : Char) : Bool :=
  c = ' ' ∨ c = '\t'

/-- Whether a text ends here, or goes on with a blank or a line break. -/
def atBlank : List Char → Bool
  | [] => true
  | c :: _ => isBlank c || isBreak c

/-- Letters, digits, underscores and dashes, of which names of anchors and tags are made. -/
def isWord (c : Char) : Bool :=
  c.isAlphanum || c = '_' || c = '-'

/-- The characters that a tag may hold besides words and percent escapes. -/
def isTagMark (c : Char) : Bool :=
  [';', '/', '?', ':', '@', '&', '=', '+', '$', '.', '!', '~', '*', '\'', '(', ')'].contains c

/-- The characters that delimit flow collections. -/
def isFlowIndicator (c : Char) : Bool :=
  [',', '[', ']', '\x7b', '\x7d'].contains c

/-- Characters that may occur in a YAML text at all. Control characters may not, except for tabs
and line breaks, nor may the two code points that are no characters. -/
def isAllowed (c : Char) : Bool :=
  c = '\t' ∨ c = '\n' ∨ c = '\r' ∨ (' ' ≤ c ∧ c ≤ '~') ∨ c = nextLine
    ∨ ('\u00a0' ≤ c ∧ c ≤ '\ufffd') ∨ 0x10000 ≤ c.toNat

/-- Characters that are written as they are: they are allowed and have a shape. Tabs are not among
them, nor is the byte order mark. -/
def isPrintable (c : Char) : Bool :=
  c = '\n' ∨ (' ' ≤ c ∧ c ≤ '~') ∨ ('\u00a0' ≤ c ∧ c ≤ '\ufffd' ∧ c ≠ byteOrderMark)
    ∨ 0x10000 ≤ c.toNat

/-- Replace every line break that is not a separator by a newline. -/
def normalizeBreaks : List Char → List Char
  | [] => []
  | '\r' :: '\n' :: rest => '\n' :: normalizeBreaks rest
  | c :: rest => (if c = '\r' ∨ c = nextLine then '\n' else c) :: normalizeBreaks rest

end ArenaVariations.Yaml
