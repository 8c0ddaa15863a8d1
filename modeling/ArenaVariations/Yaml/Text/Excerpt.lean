import ArenaVariations.Decimal.FloatStyle
import ArenaVariations.Yaml.Text.Style
import ArenaVariations.Yaml.Value.Basic

/-!
# Excerpts

Error messages show the part of a document that they are about, written in block style: one entry
a line, nested collections indented by two columns, sequences below a key not indented at all,
empty collections as a pair of brackets. A key that does not fit on a line, because it is a
collection, has several lines or is longer than 128 bytes, gets a question mark.

A tag is written like the key of a mapping with one entry, so a mapping whose only key starts like
that itself is written only under a tag; `Value.excerpt?` is empty for values that hold such a
mapping elsewhere.
-/

namespace ArenaVariations.Yaml

/-- What stands before a node on its line: nothing, the dash of an item, the indicator of an entry
whose key does not fit on a line, or a key and its colon. -/
inductive Lead where
  | root
  | dash
  | mark
  | colon
deriving Repr, DecidableEq

namespace Lead

/-- Whether a collection may start on the same line. -/
def isOpen : Lead → Bool
  | colon => false
  | _ => true

/-- The space after what stands before a node. -/
def gap : Lead → List Char
  | root => []
  | _ => [' ']

end Lead

/-- Whether a character may stand in the name of a written tag as it is. -/
def isTagChar (c : Char) : Bool :=
  c ≠ '!' && (isWord c || isTagMark c || [',', '[', ']'].contains c)

/-- Two upper-case hexadecimal digits after a percent sign. -/
def percentEscape (byte : UInt8) : List Char :=
  ['%', (Nat.digitChar (byte.toNat / 16)).toUpper, (Nat.digitChar (byte.toNat % 16)).toUpper]

/-- Characters of a written tag, with escapes for those that may not stand in it. -/
def escapeTag (cs : List Char) : List Char :=
  cs.flatMap fun c =>
    if isTagChar c then [c] else (toString c).toUTF8.toList.flatMap percentEscape

/-- A tag with the exclamation mark that starts it. A name that starts with such a mark gets no
other. -/
def markedTag (tag : String) : List Char :=
  match tag.toList with
  | '!' :: name => '!' :: name
  | name => '!' :: name

/-- A tag as written. A tag that is nothing but its exclamation mark stands in angle brackets. -/
def writeTag (tag : String) : List Char :=
  match markedTag tag with
  | ['!'] => '!' :: '<' :: escapeTag ['!'] ++ ['>']
  | marked => '!' :: escapeTag (marked.drop 1)

/-- End a line, unless a break ends it already. -/
def endLine (line : List Char) : List Char :=
  if line.getLast?.any isBreak then line else line ++ ['\n']

/-- The text of a scalar, on its line or as a block below it. -/
def scalarText (asKey : Bool) (indent : Nat) : Value → Option (List Char)
  | .null => some "null".toList
  | .bool b => some (toString b).toList
  | .int i => some (toString i).toList
  | .float x => some (FloatStyle.excerpt.write x).toList
  | .text s => some ((TextStyle.choose asKey s.toList).write indent s.toList)
  | _ => none

/-- The text of a value that fits on the line of its key, without a tag. -/
def shortText : Value → Option (List Char)
  | .sequence [] => some ['[', ']']
  | .mapping [] => some ['\x7b', '\x7d']
  | v => scalarText true 0 v

/-- How many bytes count for the length of a key. -/
def keyLength : Value → Nat
  | .null => 4
  | .bool b => (toString b).utf8ByteSize
  | .int i => (toString i).utf8ByteSize
  | .float x => (FloatStyle.excerpt.write x).utf8ByteSize
  | .text s => s.utf8ByteSize
  | _ => 0

/-- Whether a scalar key has several lines. -/
def isMultilineKey : Value → Bool
  | .text s => TextStyle.isMultiline s.toList
  | _ => false

/-- A key on the line of its value, if it fits there. -/
def simpleKey? : Value → Option (List Char)
  | .tagged tag v =>
    if isMultilineKey v || 128 < keyLength v + (String.ofList (markedTag tag)).utf8ByteSize
    then none
    else (shortText v).map fun t => writeTag tag ++ ' ' :: t
  | v => if isMultilineKey v || 128 < keyLength v then none else shortText v

/-- Join the entries of a collection. The first one starts on the line of what stands before the
collection if `sameLine` holds. -/
def joinEntries (lead : Lead) (sameLine : Bool) (indent : Nat) (entries : List (List Char)) :
    List Char :=
  let margin := List.replicate indent ' '
  match entries with
  | [] => []
  | first :: rest =>
    let start := if sameLine then lead.gap ++ first else '\n' :: margin ++ first
    rest.foldl (fun text entry => endLine text ++ margin ++ entry) start

mutual

/-- Write a value after what stands before it, in a collection at the column `indent`. `tagged`
tells that a tag stands on the line, which separates it from a collection after it. -/
def excerptNode (lead : Lead) (tagged : Bool) (indent : Nat) : Value → List Char
  | .tagged tag v => lead.gap ++ writeTag tag ++ excerptNode lead true indent v
  | .sequence (x :: xs) =>
    let sameLine := lead.isOpen && !tagged
    let inner :=
      if lead = .root then 0
      else if lead = .dash || (lead = .mark && !tagged) then indent + 2
      else indent
    joinEntries lead sameLine inner
      (('-' :: excerptNode .dash false inner x) :: excerptItems inner xs)
  | .mapping (e :: es) =>
    let inner := if lead = .root then 0 else indent + 2
    joinEntries lead (lead.isOpen && !tagged) inner
      (excerptEntry inner e :: excerptEntries inner es)
  | .sequence [] => (if lead = .root && !tagged then [] else [' ']) ++ ['[', ']']
  | .mapping [] => (if lead = .root && !tagged then [] else [' ']) ++ ['\x7b', '\x7d']
  | v =>
    (if lead = .root && !tagged then [] else [' '])
      ++ (scalarText false (if lead = .root then 2 else indent + 2) v).getD []
termination_by structural v => v

/-- Write the items of a sequence. -/
def excerptItems (indent : Nat) : List Value → List (List Char)
  | [] => []
  | v :: vs => ('-' :: excerptNode .dash false indent v) :: excerptItems indent vs
termination_by structural vs => vs

/-- Write an entry of a mapping. -/
def excerptEntry (indent : Nat) : Value × Value → List Char
  | (k, v) =>
    match simpleKey? k with
    | some key => key ++ ':' :: excerptNode .colon false indent v
    | none =>
      endLine ('?' :: excerptNode .mark false indent k)
        ++ List.replicate indent ' ' ++ ':' :: excerptNode .mark false indent v
termination_by structural e => e

/-- Write the entries of a mapping. -/
def excerptEntries (indent : Nat) : List (Value × Value) → List (List Char)
  | [] => []
  | e :: es => excerptEntry indent e :: excerptEntries indent es
termination_by structural es => es

end

namespace Value

/-- Whether a value starts like the key of a mapping with one entry does. -/
def startsWithKey : Value → Bool
  | .tagged .. | .mapping [_] => true
  | _ => false

mutual

/-- Whether a value can be written; `tagged` tells that it has a tag. -/
def isWritable (tagged : Bool) : Value → Bool
  | .tagged _ v => v.isWritable true
  | .sequence items => areWritable items
  | .mapping entries =>
    (tagged || !(entries.length = 1 && entries.any fun e => e.1.startsWithKey))
      && areWritableEntries entries
  | _ => true
termination_by structural v => v

/-- Whether all values of a list can be written. -/
def areWritable : List Value → Bool
  | [] => true
  | v :: vs => v.isWritable false && areWritable vs
termination_by structural vs => vs

/-- Whether all entries of a mapping can be written. -/
def areWritableEntries : List (Value × Value) → Bool
  | [] => true
  | e :: es => isWritableEntry e && areWritableEntries es
termination_by structural es => es

/-- Whether a key and its value can be written. -/
def isWritableEntry : Value × Value → Bool
  | (k, v) => k.isWritable false && v.isWritable false
termination_by structural e => e

end

/-- The text of a value in block style, if it can be written. -/
def excerpt? (v : Value) : Option String :=
  if v.isWritable false then some (String.ofList (endLine (excerptNode .root false 0 v)))
  else none

end Value

end ArenaVariations.Yaml
