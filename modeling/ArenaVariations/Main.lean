import ArenaVariations.Command.Program

/-!
# The command line on a real disk

The program itself is `runProgram`; this module gives it the disk as its workspace and passes its
output on. Links are not followed when the names below a folder are read.
-/

namespace ArenaVariations

namespace Disk

/-- The names below a folder. -/
partial def outline (path : String) : IO (FileTree Unit) := do
  let entries ← (← IO.FS.realPath path).readDir
  let below ← entries.toList.filterMapM fun entry => do
    match (← entry.path.symlinkMetadata).type with
    | .dir => return some (entry.fileName, ← outline entry.path.toString)
    | .file => return some (entry.fileName, FileTree.file ())
    | _ => return none
  return .folder below

/-- Why a file could not be read. -/
def problem : IO.Error → FileProblem
  | .noFileOrDirectory .. => .notFound
  | .inappropriateType _ 20 _ => .notFolder
  | .inappropriateType .. => .isFolder
  | e => .other e.toString

/-- Read a text file. -/
def readText (path : String) : IO (Except FileProblem String) := do
  try
    let bytes ← IO.FS.readBinFile path
    match String.fromUTF8? bytes with
    | some text => return .ok text
    | none => return .error .notText
  catch e => return .error (problem e)

/-- Whether an action succeeds. -/
def succeeds (action : IO Unit) : IO Bool := do
  try
    action
    return true
  catch _ => return false

/-- Whether a path leads to a folder. -/
def isFolder (path : String) : IO Bool := do
  try
    return (← (← IO.FS.realPath path).metadata).type == .dir
  catch _ => return false

/-- Create a hidden folder of a new name, picked at random, in as many tries as it takes. -/
def createHidden (folder other : Path) : Nat → IO (Option Path)
  | 0 => return none
  | tries + 1 => do
    let name := hiddenName (← IO.rand 0 999999)
    let path := folder.join ⟨name⟩
    if name ∈ other.names then createHidden folder other tries
    else
      try
        IO.FS.createDir path.text
        return some path
      catch
        | .alreadyExists .. => createHidden folder other tries
        | _ => return none

end Disk

instance : Workspace IO where
  isFolder p := Disk.isFolder p.text
  readText p := Disk.readText p.text
  outline p := Disk.outline p.text
  createFolders p := Disk.succeeds (IO.FS.createDirAll p.text)
  writeText p text := Disk.succeeds (IO.FS.writeFile p.text text)
  createHidden p other := Disk.createHidden p other hiddenTries
  moveFile source target := Disk.succeeds (IO.FS.rename source.text target.text)
  removeFolder p := discard (Disk.succeeds (IO.FS.removeDirAll p.text))

end ArenaVariations

open ArenaVariations in
/-- Run the program on the disk. -/
def main (arguments : List String) : IO UInt32 := do
  let outcome : Outcome ← runProgram arguments
  IO.print outcome.stdout
  IO.eprint outcome.stderr
  return outcome.exit.toUInt32
