import ArenaVariations.Files.Path

/-!
# Folder trees

A `FileTree` is what a run can see of the files. Its top is where all paths start from, absolute or
not, and a path that leads above the top finds nothing. There are no links, so two dots always undo
the folder before them. Names have at most 255 bytes, and paths less than 4096.
-/

namespace ArenaVariations

/-- A file with its content, or a folder with named entries. -/
inductive FileTree (α : Type) where
  | file (content : α)
  | folder (entries : List (String × FileTree α))
deriving Inhabited

/-- Why a file could not be read. -/
inductive FileProblem where
  | notFound
  | notFolder
  | isFolder
  | notText
  | nameTooLong
  | other (message : String)
deriving Repr, DecidableEq, Inhabited

namespace FileProblem

/-- The system's description of a problem. -/
def message : FileProblem → String
  | notFound => "No such file or directory (os error 2)"
  | notFolder => "Not a directory (os error 20)"
  | isFolder => "Is a directory (os error 21)"
  | notText => "stream did not contain valid UTF-8"
  | nameTooLong => "File name too long (os error 36)"
  | other message => message

end FileProblem

namespace FileTree

variable {α : Type}

mutual

/-- The names of a tree without the contents of its files. -/
def outline : FileTree α → FileTree Unit
  | file _ => file ()
  | folder entries => folder (outlineAll entries)
termination_by structural t => t

/-- The names of entries without the contents of files. -/
def outlineAll : List (String × FileTree α) → List (String × FileTree Unit)
  | [] => []
  | entry :: entries => outlineEntry entry :: outlineAll entries
termination_by structural entries => entries

/-- The name of an entry and those below it. -/
def outlineEntry : String × FileTree α → String × FileTree Unit
  | (name, t) => (name, t.outline)
termination_by structural entry => entry

end

/-- The tree at a place below a tree, given by names. -/
def at? (t : FileTree α) : List String → Option (FileTree α)
  | [] => some t
  | name :: rest =>
    match t with
    | file _ => none
    | folder entries => (entries.lookup name).bind fun entry => entry.at? rest

/-- Change an entry, or add it at the end. -/
def update (name : String) (change : Option (FileTree α) → FileTree α) :
    List (String × FileTree α) → List (String × FileTree α)
  | [] => [(name, change none)]
  | entry :: entries =>
    if entry.1 = name then (name, change (some entry.2)) :: entries
    else entry :: update name change entries

/-- Put a tree at a place. -/
def put (t : FileTree α) (place : List String) (new : FileTree α) : FileTree α :=
  match place with
  | [] => new
  | name :: rest =>
    match t with
    | file _ => t
    | folder entries =>
      folder (update name (fun old => (old.getD (folder [])).put rest new) entries)

/-- Take the entry of a name out of the folder at a place. -/
def remove (t : FileTree α) (name : String) : List String → FileTree α
  | [] =>
    match t with
    | file _ => t
    | folder entries => folder (entries.filter fun entry => entry.1 ≠ name)
  | first :: rest =>
    match t with
    | file _ => t
    | folder entries =>
      match entries.lookup first with
      | none => t
      | some entry => folder (update first (fun _ => entry.remove name rest) entries)

/-- Take away what stands at a place. The top stays. -/
def clear (t : FileTree α) (place : List String) : FileTree α :=
  match place.getLast? with
  | none => t
  | some name => t.remove name place.dropLast

/-- Whether a segment is longer than the name of a file or a folder may be. -/
def isOverlong (segment : String) : Bool :=
  255 < segment.utf8ByteSize

/-- Whether a path is longer than any path may be. -/
def isUnreachable (p : Path) : Bool :=
  4096 ≤ p.text.utf8ByteSize

/-- Follow the segments of a path from a place. The last one need not exist. Nothing is found above
the top. -/
def follow (t : FileTree α) (place : List String) : List String → Except FileProblem (List String)
  | [] => return place
  | segment :: rest =>
    match t.at? place with
    | none => throw .notFound
    | some (file _) => throw .notFolder
    | some (folder _) =>
      if Path.isVoid segment then t.follow place rest
      else if segment = ".." then
        if place.isEmpty then throw .notFound else t.follow place.dropLast rest
      else if isOverlong segment then throw .nameTooLong
      else t.follow (place ++ [segment]) rest

/-- The place that a path leads to from the top, whether there is something or not. -/
def place (t : FileTree α) (p : Path) : Except FileProblem (List String) :=
  if p.text = "" then throw .notFound
  else if isUnreachable p then throw .nameTooLong
  else t.follow [] p.segments

/-- What a path leads to. -/
def find (t : FileTree α) (p : Path) : Except FileProblem (FileTree α) := do
  match t.at? (← t.place p) with
  | some found => return found
  | none => throw .notFound

/-- Create the folders on the way from a place along segments. What was created before a failure
stays. -/
def createAlong (t : FileTree α) (place : List String) : List String → Bool × FileTree α
  | [] => (true, t)
  | segment :: rest =>
    if Path.isVoid segment then t.createAlong place rest
    else if segment = ".." then
      if place.isEmpty then (false, t) else t.createAlong place.dropLast rest
    else if isOverlong segment then (false, t)
    else
      match t.at? (place ++ [segment]) with
      | some (folder _) => t.createAlong (place ++ [segment]) rest
      | some (file _) => (false, t)
      | none => (t.put (place ++ [segment]) (folder [])).createAlong (place ++ [segment]) rest

/-- Create a folder and those that it lies in, as far as they are missing. -/
def createFolders (t : FileTree α) (p : Path) : Bool × FileTree α :=
  if p.text = "" ∨ isUnreachable p then (false, t)
  else t.createAlong [] p.segments

/-- Write a file into an existing folder, in the place of an earlier file. -/
def write (t : FileTree α) (p : Path) (content : α) : Bool × FileTree α :=
  match t.place p with
  | .error _ => (false, t)
  | .ok place =>
    match t.at? place, t.at? place.dropLast with
    | some (folder _), _ => (false, t)
    | _, some (folder _) => (true, t.put place (file content))
    | _, _ => (false, t)

/-- Move a file into an existing folder, in the place of an earlier file. -/
def move (t : FileTree α) (source target : Path) : Bool × FileTree α :=
  match t.place source with
  | .error _ => (false, t)
  | .ok place =>
    match t.at? place with
    | some (file content) =>
      match (t.clear place).write target content with
      | (true, moved) => (true, moved)
      | (false, _) => (false, t)
    | _ => (false, t)

/-- Remove a folder with everything in it. -/
def removeFolder (t : FileTree α) (p : Path) : FileTree α :=
  match t.place p with
  | .error _ => t
  | .ok place =>
    match t.at? place with
    | some (folder _) => t.clear place
    | _ => t

end FileTree

end ArenaVariations
