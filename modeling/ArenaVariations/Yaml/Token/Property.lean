import ArenaVariations.Decimal.Reading
import ArenaVariations.Yaml.Token.Basic

/-!
# Anchors, tags and directives

Percent escapes of a tag are decoded where they stand. The first byte of an escaped character must
be followed by as many others as it announces, and an escaped null character ends the tag whatever
is written after it. A directive takes a line of its own.
-/

namespace ArenaVariations.Yaml

/-- Read the name of an anchor or an alias. It must be followed by a blank or by one of the
characters that may follow a name. -/
def scanName (p : Place) : Option (List Char × Place) :=
  let name := p.rest.takeWhile isWord
  let after := p.dropWhile isWord
  let ended : Bool := match after.rest with
    | [] => true
    | c :: _ => isBlank c || isBreak c || ['?', ':', ',', ']', '\x7d', '%', '@', '`'].contains c
  if !name.isEmpty && ended then some (name, after) else none

/-- The byte that a percent escape at the start of a text spells. -/
def escapedByte? : List Char → Option (Nat × List Char)
  | '%' :: a :: b :: rest =>
    if (a.isDigit || a.isAlpha) && (b.isDigit || b.isAlpha)
        && natOfDigits.digitValue a < 16 && natOfDigits.digitValue b < 16 then
      some (natOfDigits 16 [a, b], rest)
    else none
  | _ => none

/-- Read `n` continuation bytes onto the bits of the bytes before them. -/
def continuation? : Nat → Nat → List Char → Option (Nat × List Char)
  | 0, value, cs => some (value, cs)
  | n + 1, value, cs =>
    match escapedByte? cs with
    | some (byte, rest) =>
      if byte / 64 = 2 then continuation? n (64 * value + byte % 64) rest else none
    | none => none

/-- Read the percent escapes that spell one character. The number of bytes follows from the first
one. The bytes encode no character if fewer would be enough, or if there is none with that code. -/
def escapedChar? (cs : List Char) : Option (Option Char × List Char) := do
  let (byte, rest) ← escapedByte? cs
  let (count, bits, least) ←
    if byte < 0x80 then some (0, byte, 0)
    else if byte / 32 = 6 then some (1, byte % 32, 0x80)
    else if byte / 16 = 14 then some (2, byte % 16, 0x800)
    else if byte / 8 = 30 then some (3, byte % 8, 0x10000)
    else none
  let (value, rest) ← continuation? count bits rest
  return (if value.isValidChar ∧ least ≤ value then some (Char.ofNat value) else none, rest)

/-- Read the characters of a tag. Inside angle brackets and in a directive, commas and square
brackets belong to it too. Every step passes at least one character, so as many steps as there
are characters suffice. -/
def scanTagChars (verbatim : Bool) : Nat → List Char → Option (TagChars × List Char)
  | 0, cs => some ([], cs)
  | _ + 1, [] => some ([], [])
  | fuel + 1, c :: cs =>
    if c = '%' then do
      let (d, rest) ← escapedChar? (c :: cs)
      let (more, rest) ← scanTagChars verbatim fuel rest
      return (d :: more, rest)
    else if isWord c || isTagMark c || (verbatim && [',', '[', ']'].contains c) then do
      let (more, rest) ← scanTagChars verbatim fuel cs
      return (some c :: more, rest)
    else some ([], c :: cs)

/-- The place whose rest is a given end of the line. -/
def Place.dropTo (p : Place) (rest : List Char) : Place :=
  p.drop (p.rest.length - rest.length)

/-- Read the characters of a tag after the handle `before`, whose exclamation mark does not belong
to them. At least one is needed unless there is a handle. They end at a null character. -/
def scanTagSuffix (verbatim : Bool) (before : List Char) (p : Place) :
    Option (TagChars × Place) := do
  let (cs, rest) ← scanTagChars verbatim p.rest.length p.rest
  if cs.isEmpty ∧ before.isEmpty then none
  else
    let suffix := (before.drop 1).map some ++ cs
    some (suffix.takeWhile (· ≠ some '\x00'), p.dropTo rest)

/-- Read a handle: an exclamation mark, word characters and perhaps another mark. -/
def scanHandle (p : Place) : Option (List Char × Place) :=
  match p.rest with
  | '!' :: rest =>
    let name := rest.takeWhile isWord
    match rest.drop name.length with
    | '!' :: _ => some ('!' :: name ++ ['!'], p.drop (name.length + 2))
    | _ => some ('!' :: name, p.drop (name.length + 1))
  | _ => none

/-- Read a tag. It ends at a blank, or inside a flow collection at a comma. -/
def scanTag (flow : Bool) (p : Place) : Option (TagText × Place) := do
  let (tag, after) ← match p.rest with
    | '!' :: '<' :: _ => do
      let (suffix, after) ← scanTagSuffix true [] (p.drop 2)
      match after.rest with
      | '>' :: _ => some (TagText.mk [] suffix, after.drop 1)
      | _ => none
    | _ => do
      let (handle, after) ← scanHandle p
      if 2 ≤ handle.length ∧ handle.getLast? = some '!' then
        let (suffix, after) ← scanTagSuffix false [] after
        some (TagText.mk handle suffix, after)
      else
        let (suffix, after) ← scanTagSuffix false handle after
        -- a lone exclamation mark is a tag of its own
        if suffix.isEmpty then some (TagText.mk [] [some '!'], after)
        else some (TagText.mk ['!'] suffix, after)
  if atBlank after.rest ∨ (flow ∧ after.rest.head? = some ',') then some (tag, after) else none

/-- Read a number of a version: one to nine digits. -/
def scanVersionNumber (p : Place) : Option (Nat × Place) :=
  let digits := p.rest.takeWhile Char.isDigit
  if 1 ≤ digits.length ∧ digits.length ≤ 9 then
    some (natOfDigits 10 digits, p.drop digits.length)
  else none

/-- Read a directive, from its percent sign to the end of its line. Only versions and tag handles
can be declared. -/
def scanDirective (p : Place) : Option (Token × Place) := do
  let start := p.drop 1
  let name := start.rest.takeWhile isWord
  let afterName := start.drop name.length
  if !atBlank afterName.rest then none
  let value := afterName.dropWhile isBlank
  let (token, after) ←
    if name = "YAML".toList then do
      let (major, dot) ← scanVersionNumber value
      if dot.rest.head? ≠ some '.' then none
      let (minor, after) ← scanVersionNumber (dot.drop 1)
      some (Token.version major minor, after)
    else if name = "TAG".toList then do
      let (handle, gap) ← scanHandle value
      if 2 ≤ handle.length ∧ handle.getLast? ≠ some '!' then none
      if !(gap.rest.head?.any isBlank) then none
      let (expansion, after) ← scanTagSuffix true [] (gap.dropWhile isBlank)
      if !atBlank after.rest then none
      some (Token.tagHandle handle expansion, after)
    else none
  let done ← ((after.dropWhile isBlank).dropComment).endLine?
  return (token, done)

end ArenaVariations.Yaml
