import ArenaVariations.Yaml.Token.Stream

/-!
# Syntax trees of YAML documents

`Tree.ofTokens?` reads the tokens of a text as one document: a tree of scalars, sequences and
mappings with their tags and anchors, and aliases by name. A text without any document has no
tree; a text with a second document is refused. Tags are spelled out with the handles that the
document declares.
-/

namespace ArenaVariations.Yaml

/-- What stands before a node: a name for aliases, and a tag. -/
structure Properties where
  anchor : Option (List Char)
  tag : Option TagChars
deriving Repr, DecidableEq, Inhabited

/-- A node of a document. Aliases refer to their targets by an `ρ`. -/
inductive Tree (ρ : Type) where
  | aliasTo (target : ρ)
  | scalar (properties : Properties) (text : ScalarText)
  | sequence (properties : Properties) (items : List (Tree ρ))
  | mapping (properties : Properties) (entries : List (Tree ρ × Tree ρ))
deriving Inhabited

namespace Tree

/-- A node that is left out. -/
def absent {ρ : Type} : Tree ρ := scalar ⟨none, none⟩ ⟨[], true⟩

/-- Declared tag handles and what they abbreviate. -/
abbrev Handles := List (List Char × TagChars)

/-- The handles that every document has unless it declares them otherwise. -/
def defaultHandles : Handles :=
  [("!".toList, [some '!']), ("!!".toList, "tag:yaml.org,2002:".toList.map some)]

/-- Spell a tag out. -/
def spellTag (handles : Handles) (tag : TagText) : Option TagChars :=
  if tag.handle.isEmpty then some tag.suffix
  else (handles.lookup tag.handle).map (· ++ tag.suffix)

/-- Read the properties of a node: an anchor and a tag, in either order. -/
def properties? (handles : Handles) : List Token → Option (Properties × List Token)
  | .anchor name :: .tag tag :: rest | .tag tag :: .anchor name :: rest =>
    (spellTag handles tag).map fun t => (⟨some name, some t⟩, rest)
  | .anchor name :: rest => some (⟨some name, none⟩, rest)
  | .tag tag :: rest => (spellTag handles tag).map fun t => (⟨none, some t⟩, rest)
  | rest => some (⟨none, none⟩, rest)

/-- Whether a token ends an entry of a block mapping before its value has begun. -/
def endsBlockPart : Token → Bool
  | .key | .value | .blockEnd => true
  | _ => false

/-- Whether a token ends an entry of a block sequence without an item. -/
def endsBlockEntry : Token → Bool
  | .blockEntry | .blockEnd => true
  | _ => false

/-- Whether a token ends an entry of a block sequence that is not indented. -/
def endsPlainEntry : Token → Bool
  | .blockEntry | .key | .value | .blockEnd => true
  | _ => false

/-- Whether a token ends a part of a flow sequence. -/
def endsFlowItem : Token → Bool
  | .flowEntry | .flowSequenceEnd => true
  | _ => false

/-- Whether a token ends a part of a flow mapping. -/
def endsFlowPart : Token → Bool
  | .flowEntry | .flowMappingEnd => true
  | _ => false

/-- A reader of one tree from the tokens ahead. -/
abbrev Reader := List Token → Option (Tree (List Char) × List Token)

/-- Read a node unless the next token shows that it is left out. At the end of the text the node
is not left out but missing. -/
def optional (ends : Token → Bool) (node : Reader) : Reader
  | [] => none
  | t :: rest => if ends t then some (absent, t :: rest) else node (t :: rest)

/-- Read the value after a colon, if there is one. -/
def valuePart (ends : Token → Bool) (node : Reader) : Reader
  | .value :: rest => optional ends node rest
  | rest => some (absent, rest)

mutual

/-- Read a node. Block collections may start only where `block` holds; where `unindented` holds,
a dash at the column of the mapping around it starts a sequence. Every call passes a token or
goes on to a smaller part of the grammar, so the number of tokens bounds the depth of calls. -/
def node (handles : Handles) (fuel : Nat) (block unindented : Bool) : Reader :=
  match fuel with
  | 0 => fun _ => none
  | fuel + 1 => fun
    | .aliasTo name :: rest => some (aliasTo name, rest)
    | tokens => do
      let (ps, tokens) ← properties? handles tokens
      match tokens with
      | .scalar text :: rest => return (scalar ps text, rest)
      | .flowSequence :: rest => flowItems handles fuel ps true [] rest
      | .flowMapping :: rest => flowEntries handles fuel ps true [] rest
      | rest =>
        match rest, block, unindented with
        | .blockEntry :: _, _, true => plainItems handles fuel ps [] rest
        | .blockSequence :: rest, true, _ => blockItems handles fuel ps [] rest
        | .blockMapping :: rest, true, _ => blockEntries handles fuel ps [] rest
        | _, _, _ =>
          if ps.anchor.isSome || ps.tag.isSome then return (scalar ps ⟨[], true⟩, rest)
          else none

/-- Read the items of a block sequence up to its end. -/
def blockItems (handles : Handles) (fuel : Nat) (ps : Properties)
    (items : List (Tree (List Char))) : Reader :=
  match fuel with
  | 0 => fun _ => none
  | fuel + 1 => fun
    | .blockEntry :: rest => do
      let (item, rest) ← optional endsBlockEntry (node handles fuel true false) rest
      blockItems handles fuel ps (item :: items) rest
    | .blockEnd :: rest => some (sequence ps items.reverse, rest)
    | _ => none

/-- Read the items of a block sequence that is not indented. It ends before the first token that
is no dash. -/
def plainItems (handles : Handles) (fuel : Nat) (ps : Properties)
    (items : List (Tree (List Char))) : Reader :=
  match fuel with
  | 0 => fun _ => none
  | fuel + 1 => fun
    | .blockEntry :: rest => do
      let (item, rest) ← optional endsPlainEntry (node handles fuel true false) rest
      plainItems handles fuel ps (item :: items) rest
    | rest => some (sequence ps items.reverse, rest)

/-- Read the entries of a block mapping up to its end. Each starts with a key, which may be
empty. -/
def blockEntries (handles : Handles) (fuel : Nat) (ps : Properties)
    (entries : List (Tree (List Char) × Tree (List Char))) : Reader :=
  match fuel with
  | 0 => fun _ => none
  | fuel + 1 => fun
    | .key :: rest => do
      let (key, rest) ← optional endsBlockPart (node handles fuel true true) rest
      let (value, rest) ← valuePart endsBlockPart (node handles fuel true true) rest
      blockEntries handles fuel ps ((key, value) :: entries) rest
    | .blockEnd :: rest => some (mapping ps entries.reverse, rest)
    | _ => none

/-- Read the items of a flow sequence up to its bracket. An item of the form `key: value` is a
mapping with one entry. -/
def flowItems (handles : Handles) (fuel : Nat) (ps : Properties) (first : Bool)
    (items : List (Tree (List Char))) : Reader :=
  match fuel with
  | 0 => fun _ => none
  | fuel + 1 => fun
    | .flowSequenceEnd :: rest => some (sequence ps items.reverse, rest)
    | tokens => do
      let tokens ← if first then some tokens else match tokens with
        | .flowEntry :: rest => some rest
        | _ => none
      match tokens with
      | .flowSequenceEnd :: rest => return (sequence ps items.reverse, rest)
      | .key :: rest =>
        let (key, rest) ← match rest with
          | t :: rest =>
            -- a token that stands for a missing key is passed over with it
            if t = .value || endsFlowItem t then some (absent, rest)
            else node handles fuel false false (t :: rest)
          | [] => none
        let (value, rest) ← valuePart endsFlowItem (node handles fuel false false) rest
        flowItems handles fuel ps false (mapping ⟨none, none⟩ [(key, value)] :: items) rest
      | tokens =>
        let (item, rest) ← node handles fuel false false tokens
        flowItems handles fuel ps false (item :: items) rest

/-- Read the entries of a flow mapping up to its brace. A key may come without a value. -/
def flowEntries (handles : Handles) (fuel : Nat) (ps : Properties) (first : Bool)
    (entries : List (Tree (List Char) × Tree (List Char))) : Reader :=
  match fuel with
  | 0 => fun _ => none
  | fuel + 1 => fun
    | .flowMappingEnd :: rest => some (mapping ps entries.reverse, rest)
    | tokens => do
      let tokens ← if first then some tokens else match tokens with
        | .flowEntry :: rest => some rest
        | _ => none
      match tokens with
      | .flowMappingEnd :: rest => return (mapping ps entries.reverse, rest)
      | .key :: rest =>
        let (key, rest) ←
          optional (fun t => t = .value || endsFlowPart t) (node handles fuel false false) rest
        let (value, rest) ← valuePart endsFlowPart (node handles fuel false false) rest
        flowEntries handles fuel ps false ((key, value) :: entries) rest
      | tokens =>
        let (key, rest) ← node handles fuel false false tokens
        flowEntries handles fuel ps false ((key, absent) :: entries) rest

end

/-- Read the directives of a document. A version may be declared once and must be one that is
known; a handle may be declared once. -/
def directives? (version : Bool) (handles : Handles) :
    List Token → Option (Handles × List Token)
  | .version major minor :: rest =>
    if !version && major = 1 && (minor = 1 || minor = 2) then directives? true handles rest
    else none
  | .tagHandle handle expansion :: rest =>
    if (handles.lookup handle).isSome then none
    else directives? version ((handle, expansion) :: handles) rest
  | rest => some (handles, rest)

/-- Whether a token can only stand between documents. -/
def isDocumentToken : Token → Bool
  | .version .. | .tagHandle .. | .documentStart | .documentEnd => true
  | _ => false

/-- Read the node of a document with the given handles. -/
def root (handles : Handles) (tokens : List Token) :
    Option (Tree (List Char) × List Token) :=
  node handles (2 * tokens.length + 1) true false tokens

/-- Read the tokens of a text as one document, or as none. -/
def ofTokens? (tokens : List Token) : Option (Option (Tree (List Char))) := do
  match tokens with
  | [] => return none
  | t :: _ =>
    let (tree, rest) ←
      if isDocumentToken t && t ≠ .documentEnd then do
        let (declared, rest) ← directives? false [] tokens
        match rest with
        | .documentStart :: rest =>
          if rest.head?.all isDocumentToken then some (absent, rest)
          else root (declared ++ defaultHandles) rest
        | _ => none
      else root defaultHandles tokens
    if rest.all (· = .documentEnd) then return some tree else none

end Tree

end ArenaVariations.Yaml
