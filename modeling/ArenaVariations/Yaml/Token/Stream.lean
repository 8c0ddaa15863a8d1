import ArenaVariations.Yaml.Token.Property
import ArenaVariations.Yaml.Token.Scalar

/-!
# From text to tokens

`Token.ofChars?` cuts a text into tokens. Block collections are found by indentation: a dash, a
question mark or a colon that stands further to the right than the block around it opens a new
one, and a line that starts further to the left closes blocks. A key of the form `key: value` is
only recognized at its colon, so the place of every node that could be such a key is remembered,
and the tokens before the key are inserted there. A key must stand on one line and be at most
1024 bytes long. A byte order mark at the start of a line is passed over together with the blanks
and comments between tokens; it still takes up a column.
-/

namespace ArenaVariations.Yaml

/-- A node that is a key if a colon follows. -/
structure PossibleKey where
  /-- The node stands where only a key may stand. -/
  required : Bool
  /-- How many tokens come before the node. -/
  position : Nat
  mark : Mark
deriving Repr, DecidableEq, Inhabited

/-- The state between two tokens. -/
structure TokenState where
  place : Place
  /-- The possible key of the innermost collection. -/
  key : Option PossibleKey
  /-- The possible keys of the collections around the open flow collections, innermost first. -/
  outerKeys : List (Option PossibleKey)
  /-- The column of the innermost block, or `-1` outside of all. -/
  indent : Int
  outerIndents : List Int
  /-- Whether a key may start here. -/
  keyAllowed : Bool
  /-- The tokens so far, in reverse. -/
  tokens : List Token
  count : Nat
deriving Inhabited

namespace TokenState

/-- Before the first token. -/
def start (place : Place) : TokenState :=
  ⟨place, none, [], -1, [], true, [], 0⟩

/-- Whether a flow collection is open. -/
def inFlow (s : TokenState) : Bool :=
  !s.outerKeys.isEmpty

/-- Add a token. -/
def emit (s : TokenState) (t : Token) : TokenState :=
  { s with tokens := t :: s.tokens, count := s.count + 1 }

/-- Add a token after the first `position` ones. -/
def insert (s : TokenState) (position : Nat) (t : Token) : TokenState :=
  { s with tokens := s.tokens.insertIdx (s.count - position) t, count := s.count + 1 }

/-- Add the token of the next `n` characters. -/
def take (s : TokenState) (n : Nat) (t : Token) : TokenState :=
  { s with place := s.place.drop n }.emit t

/-- Forget the possible key. A required key must not be forgotten. -/
def dropKey (s : TokenState) : Option TokenState :=
  if s.key.any (·.required) then none else some { s with key := none }

/-- Remember this place as a possible key, if a key may start here. -/
def saveKey (s : TokenState) : Option TokenState :=
  if s.keyAllowed then
    let required := !s.inFlow && s.indent = s.place.mark.column
    s.dropKey.map fun s => { s with key := some ⟨required, s.count, s.place.mark⟩ }
  else some s

/-- Keep a possible key only while it is on this line and not too long. -/
def refresh (m : Mark) : Option PossibleKey → Option (Option PossibleKey)
  | none => some none
  | some k =>
    if k.mark.line < m.line ∨ k.mark.bytes + 1024 < m.bytes then
      if k.required then none else some none
    else some (some k)

/-- Forget the possible keys that are on other lines or too long. -/
def dropStaleKeys (s : TokenState) : Option TokenState := do
  let key ← refresh s.place.mark s.key
  let outerKeys ← s.outerKeys.mapM (refresh s.place.mark)
  return { s with key, outerKeys }

/-- Close the blocks that are indented more than a column; `indents` are those around the
innermost one. -/
def closeBlocks (column : Int) (s : TokenState) : List Int → TokenState
  | [] => s
  | outer :: indents =>
    if s.indent > column then
      closeBlocks column ({ s with indent := outer, outerIndents := indents }.emit .blockEnd)
        indents
    else s

/-- Close the blocks that are indented more than a column, unless a flow collection is open. -/
def unroll (s : TokenState) (column : Int) : TokenState :=
  if s.inFlow then s else s.closeBlocks column s.outerIndents

/-- Open a block at a column if it is indented more than the block around it. -/
def roll (s : TokenState) (column position : Nat) (t : Token) : TokenState :=
  if s.inFlow ∨ (column : Int) ≤ s.indent then s
  else { s with indent := column, outerIndents := s.indent :: s.outerIndents }.insert position t

/-- Pass blanks, comments and line breaks, and a byte order mark at the start of a line. Tabs may
not indent a line on which a key could start. A key may start on every new line outside of flow
collections. -/
def skipGap (flow : Bool) (comment keyAllowed : Bool) (m : Mark) : List Char → Bool × Place
  | [] => (keyAllowed, ⟨[], m⟩)
  | c :: rest =>
    if isBreak c then skipGap flow false (keyAllowed || !flow) m.nextLine rest
    else if comment ∨ c = ' ' ∨ (c = '\t' ∧ (flow ∨ !keyAllowed))
        ∨ (c = byteOrderMark ∧ m.column = 0) then
      skipGap flow comment keyAllowed (m.advance c) rest
    else if c = '#' then skipGap flow true keyAllowed (m.advance c) rest
    else (keyAllowed, ⟨c :: rest, m⟩)

/-- Go to the next token: pass the gap, forget stale keys and close blocks. -/
def approach (s : TokenState) : Option TokenState := do
  let (keyAllowed, place) := skipGap s.inFlow false s.keyAllowed s.place.mark s.place.rest
  let s ← { s with keyAllowed, place }.dropStaleKeys
  return s.unroll s.place.mark.column

/-- A directive or a marker of a document closes all blocks. -/
def leaveBlocks (s : TokenState) : Option TokenState :=
  (s.unroll (-1)).dropKey.map fun s => { s with keyAllowed := false }

/-- A bracket or a brace opens a flow collection. -/
def openFlow (s : TokenState) (t : Token) : Option TokenState := do
  let s ← s.saveKey
  return { s with outerKeys := s.key :: s.outerKeys, key := none, keyAllowed := true }.take 1 t

/-- A bracket or a brace closes a flow collection. -/
def closeFlow (s : TokenState) (t : Token) : Option TokenState := do
  let s ← s.dropKey
  let s := match s.outerKeys with
    | [] => s
    | key :: outerKeys => { s with key, outerKeys }
  return { s with keyAllowed := false }.take 1 t

/-- A dash opens an entry of a block sequence. -/
def blockEntry (s : TokenState) : Option TokenState := do
  if !s.inFlow && !s.keyAllowed then none
  let s ← (s.roll s.place.mark.column s.count .blockSequence).dropKey
  return { s with keyAllowed := true }.take 1 .blockEntry

/-- A question mark opens a key. -/
def explicitKey (s : TokenState) : Option TokenState := do
  if !s.inFlow && !s.keyAllowed then none
  let s ← (s.roll s.place.mark.column s.count .blockMapping).dropKey
  return { s with keyAllowed := !s.inFlow }.take 1 .key

/-- A colon opens a value, and makes the possible key before it a key. -/
def value (s : TokenState) : Option TokenState :=
  match s.key with
  | some k =>
    let s := (s.insert k.position .key).roll k.mark.column k.position .blockMapping
    some ({ s with key := none, keyAllowed := false }.take 1 .value)
  | none =>
    if !s.inFlow && !s.keyAllowed then none
    else
      let s := s.roll s.place.mark.column s.count .blockMapping
      some ({ s with keyAllowed := !s.inFlow }.take 1 .value)

/-- Read a token that could be a key with the given pass over the characters. -/
def node (s : TokenState) (scan : TokenState → Option (Token × Bool × Place)) :
    Option TokenState := do
  let s ← s.saveKey
  let (token, keyAllowed, place) ← scan s
  return { s with place, keyAllowed }.emit token

/-- Read a block scalar. -/
def blockScalar (s : TokenState) (literal : Bool) : Option TokenState := do
  let s ← s.dropKey
  let (header, n) ← blockHeader? literal (s.place.rest.drop 1)
  let body ← (((s.place.drop (1 + n)).dropWhile isBlank).dropComment).endLine?
  let indent := header.increment.map fun n => (max s.indent 0).toNat + n
  let (text, place) ← scanBlock header s.indent ⟨[], indent, 0, none, [], false, false⟩
    body.mark body.rest
  return { s with place, keyAllowed := true }.emit (.scalar ⟨text, false⟩)

/-- Whether a plain scalar may start with these characters. Indicators may not start one, except
for a dash, and outside of flow collections a question mark or a colon, before a character that
is no blank. -/
def startsPlain (flow : Bool) : List Char → Bool
  | [] => false
  | c :: rest =>
    if c = '-' then !(rest.head?.any isBlank)
    else if c = '?' ∨ c = ':' then !flow && !atBlank rest
    else !(isBlank c || isBreak c || isFlowIndicator c
      || ['#', '&', '*', '!', '|', '>', '\'', '"', '%', '@', '`'].contains c)

/-- Read the next token, which starts with the character `c`. -/
def next (s : TokenState) (c : Char) : Option TokenState :=
  let atMargin := s.place.mark.column = 0
  let beforeBlank := atBlank (s.place.rest.drop 1)
  if atMargin ∧ c = '%' then do
    let s ← s.leaveBlocks
    let (token, place) ← scanDirective s.place
    return { s with place }.emit token
  else if atMargin ∧ atDocumentMarker s.place.rest then
    s.leaveBlocks.map fun s => s.take 3 (if c = '-' then .documentStart else .documentEnd)
  else if c = '[' then s.openFlow .flowSequence
  else if c = '\x7b' then s.openFlow .flowMapping
  else if c = ']' then s.closeFlow .flowSequenceEnd
  else if c = '\x7d' then s.closeFlow .flowMappingEnd
  else if c = ',' then
    s.dropKey.map fun s => { s with keyAllowed := true }.take 1 .flowEntry
  else if c = '-' ∧ beforeBlank then s.blockEntry
  else if c = '?' ∧ (s.inFlow ∨ beforeBlank) then s.explicitKey
  else if c = ':' ∧ (s.inFlow ∨ beforeBlank) then s.value
  else if c = '*' then
    s.node fun s => (scanName (s.place.drop 1)).map fun (name, p) => (.aliasTo name, false, p)
  else if c = '&' then
    s.node fun s => (scanName (s.place.drop 1)).map fun (name, p) => (.anchor name, false, p)
  else if c = '!' then
    s.node fun s => (scanTag s.inFlow s.place).map fun (tag, p) => (.tag tag, false, p)
  else if c = '|' ∧ !s.inFlow then s.blockScalar true
  else if c = '>' ∧ !s.inFlow then s.blockScalar false
  else if c = '\'' ∨ c = '"' then
    s.node fun s =>
      (scanQuoted (c = '"') (.words .wordStart) .empty (s.place.mark.advance c)
        (s.place.rest.drop 1)).map fun (text, p) => (.scalar ⟨text, false⟩, false, p)
  else if startsPlain s.inFlow s.place.rest then
    s.node fun s =>
      (scanPlain s.inFlow (s.indent + 1) .wordStart .empty s.place.mark s.place.rest).map
        fun (f, p) => (.scalar ⟨f.result, true⟩, f.broken, p)
  else none

/-- Read all tokens. Each step passes at least one character. -/
def run : Nat → TokenState → Option (List Token)
  | 0, _ => none
  | fuel + 1, s => do
    let s ← s.approach
    match s.place.rest with
    | [] => (s.unroll (-1)).dropKey.map fun s => s.tokens.reverse
    | c :: _ => (← s.next c) |> run fuel

end TokenState

/-- Cut a text into tokens. Characters that YAML does not allow are refused wherever they stand. -/
def Token.ofChars? (cs : List Char) : Option (List Token) :=
  if cs.all isAllowed then
    TokenState.run (cs.length + 1) (.start ⟨normalizeBreaks cs, .start⟩)
  else none

end ArenaVariations.Yaml
