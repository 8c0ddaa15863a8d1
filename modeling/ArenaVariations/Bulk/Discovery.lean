import ArenaVariations.Files.Tree
import ArenaVariations.Output

/-!
# Finding templates

The templates of a folder are the YAML files in it and below it, in a stable order: siblings by
name, and what is in a folder at the place of the folder. Folders of variations are never looked
into, so that results do not become templates; hidden folders and folders that the caller names
may be left out too.
-/

namespace ArenaVariations

/-- Which folders are looked into. -/
structure Discovery where
  /-- Names of folders, or paths below the root. -/
  ignored : List Path
  ignoreHidden : Bool
deriving Repr, Inhabited

namespace Discovery

/-- Whether a folder below the root is left out. -/
def skips (d : Discovery) (root folder : Path) (name : String) : Bool :=
  name.endsWith variationsSuffix
    || (d.ignoreHidden && name.startsWith ".")
    || d.ignored.any fun ignored =>
      ((folder.below? root).getD folder).same ignored || folder.endsWith ignored

/-- Whether a file is a template. -/
def isTemplate (file : Path) : Bool :=
  file.extension? == some "yaml" || file.extension? == some "yml"

mutual

/-- The templates of each entry of a folder, in the order of the entries. -/
def ofEntries (d : Discovery) (root folder : Path) :
    List (String × FileTree Unit) → List (String × List Path)
  | [] => []
  | entry :: entries => d.ofEntry root folder entry :: d.ofEntries root folder entries
termination_by structural entries => entries

/-- The templates that an entry of a folder leads to. -/
def ofEntry (d : Discovery) (root folder : Path) :
    String × FileTree Unit → String × List Path
  | (name, t) => (name, d.below root (folder.join ⟨name⟩) name t)
termination_by structural entry => entry

/-- The templates that a file is or a folder holds. -/
def below (d : Discovery) (root path : Path) (name : String) : FileTree Unit → List Path
  | .file _ => if isTemplate path then [path] else []
  | .folder entries =>
    if d.skips root path name then []
    else ((d.ofEntries root path entries).mergeSort fun a b => a.1 ≤ b.1).flatMap Prod.snd
termination_by structural t => t

end

/-- The templates below a root. The root itself is always looked into. -/
def templates (d : Discovery) (root : Path) : FileTree Unit → List Path
  | .file _ => []
  | .folder entries =>
    ((d.ofEntries root root entries).mergeSort fun a b => a.1 ≤ b.1).flatMap Prod.snd

end Discovery

end ArenaVariations
