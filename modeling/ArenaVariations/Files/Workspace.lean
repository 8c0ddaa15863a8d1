import ArenaVariations.Files.Tree

/-!
# Workspaces

A workspace is where a run finds its templates and leaves its results. The operations are stated
for any monad; `FileTree` is the workspace that keeps everything in memory.

A run can ask for a hidden folder of a new name. Which name that is belongs to the workspace; that
there is nothing of this name yet is all that a run relies on.
-/

namespace ArenaVariations

/-- The name of a hidden folder. -/
def hiddenName (number : Nat) : String :=
  ".procgen-" ++ String.ofList (List.leftpad 6 '0' (Nat.toDigits 10 number))

/-- The first name that is not taken, from a number on, unless so many tries are in vain. -/
def unusedName? (taken : List String) : Nat → Nat → Option String
  | 0, _ => none
  | tries + 1, number =>
    if hiddenName number ∈ taken then unusedName? taken tries (number + 1)
    else some (hiddenName number)

/-- How many names are tried for a hidden folder. -/
def hiddenTries : Nat := 65536

/-- What a run needs of its surroundings. -/
class Workspace (m : Type → Type) where
  /-- Whether a path leads to a folder. -/
  isFolder : Path → m Bool
  /-- Read a text file. -/
  readText : Path → m (Except FileProblem String)
  /-- The names below a folder. -/
  outline : Path → m (FileTree Unit)
  /-- Create a folder and those that it lies in, as far as they are missing. -/
  createFolders : Path → m Bool
  /-- Write a text file into an existing folder. -/
  writeText : Path → String → m Bool
  /-- Create a hidden folder of a new name in an existing folder. The name is none of those that
  another path goes through. -/
  createHidden : Path → Path → m (Option Path)
  /-- Move a file into an existing folder. -/
  moveFile : Path → Path → m Bool
  /-- Remove a folder with everything in it. -/
  removeFolder : Path → m Unit

namespace FileTree

/-- Whether a path leads to a folder of the tree. -/
def hasFolder (t : FileTree ByteArray) (p : Path) : Bool :=
  match t.find p with
  | .ok (folder _) => true
  | _ => false

/-- Read a text file of the tree. -/
def readText (t : FileTree ByteArray) (p : Path) : Except FileProblem String := do
  match ← t.find p with
  | folder _ => throw .isFolder
  | file bytes =>
    match String.fromUTF8? bytes with
    | some text => return text
    | none => throw .notText

/-- The names below a folder of the tree. -/
def outlineOf (t : FileTree ByteArray) (p : Path) : FileTree Unit :=
  match t.find p with
  | .ok found => found.outline
  | .error _ => folder []

/-- Create a hidden folder of a new name in a folder of the tree. -/
def createHidden {α : Type} (t : FileTree α) (p other : Path) : Option Path × FileTree α :=
  match t.find p with
  | .ok (folder entries) =>
    match unusedName? (entries.map Prod.fst ++ other.names) hiddenTries 0 with
    | none => (none, t)
    | some name =>
      match t.place (p.join ⟨name⟩) with
      | .error _ => (none, t)
      | .ok place => (some (p.join ⟨name⟩), t.put place (folder []))
  | _ => (none, t)

instance : Workspace (StateM (FileTree ByteArray)) where
  isFolder p := return (← get).hasFolder p
  readText p := return (← get).readText p
  outline p := return (← get).outlineOf p
  createFolders p := modifyGet fun t => t.createFolders p
  writeText p text := modifyGet fun t => t.write p text.toUTF8
  createHidden p other := modifyGet fun t => t.createHidden p other
  moveFile source target := modifyGet fun t => t.move source target
  removeFolder p := modify fun t => t.removeFolder p

end FileTree

end ArenaVariations
