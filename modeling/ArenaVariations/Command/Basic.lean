import ArenaVariations.Bulk.Discovery
import ArenaVariations.Generation

/-!
# Commands

What can be asked on the command line, and why a command may fail.
-/

namespace ArenaVariations

/-- What to produce from a template. -/
inductive Request where
  | sample (amount : Nat)
  /-- Every variation, or the first few. Without a number of first ones a template that has too
  many variations is refused. -/
  | generate (head : Option Nat)
deriving Repr, Inhabited

/-- How variations are written. -/
structure WriteOptions where
  limits : Limits
  /-- The output folder, if it is not the default one. -/
  output : Option Path
  copyTemplate : Bool
deriving Repr

/-- Which templates of a folder are processed. -/
structure BulkOptions where
  discovery : Discovery
  /-- All folders of variations lie in the output folder itself. -/
  flatten : Bool
deriving Repr

/-- The commands. -/
inductive Command where
  | write (template : Path) (request : Request) (options : WriteOptions)
  | count (template : Path)
  | writeAll (root : Path) (request : Request) (options : WriteOptions) (bulk : BulkOptions)
  | countAll (root : Path) (json : Bool) (bulk : BulkOptions)
deriving Repr

/-- Why a command failed. -/
inductive CommandFailure where
  | template (error : Error)
  | isFolder (path : Path)
  | notFolder (path : Path)
  | tooMany (count limit : Nat)
  | folderNotCreated (path : Path)
  /-- There is no hidden folder to put results into at first. -/
  | notStaged (folder : Path)
  | notCreated (path : Path)
  | notWritten (path : Path)
  | notMoved (path : Path)
  | templatesFailed (failed processed : Nat) (output : Path)
  | templatesUncounted (failed processed : Nat)
deriving Inhabited

namespace CommandFailure

/-- Why a template with too many variations is refused. -/
def refusal (count limit : Nat) : String :=
  s!"Too many variations. The total number of possible variations is {count}, while the maximum "
    ++ s!"is {limit}. Try reducing choices, increasing --max, or using --head."

/-- What is printed when a command fails. -/
def report : CommandFailure → String
  | template e => e.report ++ "\n"
  | isFolder path => problem
      s!"{path.text} is a directory. Use sample-bulk or gen-bulk to process a directory of templates."
  | notFolder path =>
    problem s!"{path.text} is not a directory. Use the single-template command instead."
  | tooMany count limit => problem (refusal count limit)
  | folderNotCreated path => problem s!"Could not create output directory {path.text}"
  | notStaged folder => problem s!"Could not create a staging directory in {folder.text}"
  | notCreated path => problem s!"Could not create {path.text}"
  | notWritten path => problem s!"Could not write {path.text}"
  | notMoved path => problem s!"Could not move output to {path.text}"
  | templatesFailed failed processed output =>
    problem (s!"{failed} of {processed} template(s) failed. "
      ++ s!"See the .error.txt files in {output.text}")
  | templatesUncounted failed processed =>
    problem s!"{failed} of {processed} template(s) could not be counted"
where
  /-- A problem that is no template's. -/
  problem (text : String) : String := "Error: " ++ text ++ "\n"

end CommandFailure

/-- What a run of the program leaves besides files. -/
structure Outcome where
  exit : UInt8
  stdout : String
  stderr : String
deriving Repr, Inhabited

end ArenaVariations
