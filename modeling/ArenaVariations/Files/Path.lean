/-!
# Paths

A path is kept as it was written, because messages show it that way, and is compared by its
components: the root, the current folder at the start of a relative path, and names. Repeated and
trailing slashes, and dots after the start, name nothing. Two dots are a name like any other;
only an actual folder tree can tell where they lead.
-/

namespace ArenaVariations

/-- A path as it was written. -/
structure Path where
  text : String
deriving Repr, Inhabited, DecidableEq

namespace Path

/-- What stands between the slashes of a path. -/
def segments (p : Path) : List String :=
  (p.text.toList.splitOn '/').map String.ofList

/-- Segments that name nothing, except for a dot at the start of a path. -/
def isVoid (segment : String) : Bool :=
  segment == "" || segment == "."

/-- Whether a path starts at the root. -/
def isAbsolute (p : Path) : Bool :=
  p.text.toList.head? = some '/'

/-- How a path starts: at the root, explicitly in the current folder, or with a name. -/
inductive Lead where
  | root
  | current
  | name
deriving DecidableEq, Repr

/-- How a path starts. -/
def lead (p : Path) : Lead :=
  if p.isAbsolute then .root
  else if p.segments.head? = some "." then .current
  else .name

/-- The segments after the start. -/
def body (p : Path) : List String :=
  match p.lead with
  | .name => p.segments
  | _ => p.segments.tail

/-- The path that starts and goes on in a given way. -/
def ofParts (lead : Lead) (body : List String) : Path :=
  match lead, body with
  | .name, _ => ⟨"/".intercalate body⟩
  | .root, _ => ⟨"/" ++ "/".intercalate body⟩
  | .current, [] => ⟨"."⟩
  | .current, _ => ⟨"./" ++ "/".intercalate body⟩

/-- The component that the start of a path stands for. -/
def leadComponents (p : Path) : List String :=
  match p.lead with
  | .root => ["/"]
  | .current => ["."]
  | .name => []

/-- The names after the start. -/
def names (p : Path) : List String :=
  p.body.filter fun segment => !isVoid segment

/-- The components of a path. -/
def components (p : Path) : List String :=
  p.leadComponents ++ p.names

/-- Whether paths have the same components. -/
def same (p q : Path) : Bool :=
  p.components == q.components

/-- Drop segments at the end that name nothing. -/
def trimEnd (segments : List String) : List String :=
  (segments.reverse.dropWhile isVoid).reverse

/-- The path without its last component. -/
def parent? (p : Path) : Option Path :=
  match trimEnd p.body, p.lead with
  | [], .current => some ⟨""⟩
  | [], _ => none
  | body, lead => some (ofParts lead (trimEnd body.dropLast))

/-- The name at the end of a path, if it does not lead upwards. -/
def fileName? (p : Path) : Option String :=
  match (trimEnd p.body).getLast? with
  | some ".." => none
  | name => name

/-- A file name cut at its last dot. A dot at the start does not count. -/
def cut (name : String) : String × Option String :=
  let cs := name.toList.reverse
  let suffix := cs.takeWhile (· ≠ '.')
  match cs.drop suffix.length with
  | [] | ['.'] => (name, none)
  | _ :: before => (String.ofList before.reverse, some (String.ofList suffix.reverse))

/-- The file name without its extension. -/
def stem? (p : Path) : Option String :=
  p.fileName?.map fun name => (cut name).1

/-- The extension of the file name. -/
def extension? (p : Path) : Option String :=
  p.fileName?.bind fun name => (cut name).2

/-- The path that leads on from a folder. An absolute path replaces it. -/
def join (p q : Path) : Path :=
  if q.isAbsolute then q
  else if p.text = "" ∨ p.text.toList.getLast? = some '/' then ⟨p.text ++ q.text⟩
  else ⟨p.text ++ "/" ++ q.text⟩

/-- The segments that follow some names. -/
def after? : List String → List String → Option (List String)
  | body, [] => some body
  | [], _ :: _ => none
  | segment :: body, name :: names =>
    if isVoid segment then after? body (name :: names)
    else if segment = name then after? body names
    else none

/-- The rest of a path below a folder. -/
def below? (p folder : Path) : Option Path :=
  match folder.leadComponents, folder.names with
  | [], [] => some (ofParts p.lead (trimEnd p.body))
  | lead, names =>
    if lead = p.leadComponents then
      (after? p.body names).map fun rest => ofParts .name (trimEnd (rest.dropWhile isVoid))
    else none

/-- Whether the components of a path end with those of another. -/
def endsWith (p q : Path) : Bool :=
  q.components.reverse.isPrefixOf p.components.reverse

end Path

end ArenaVariations
