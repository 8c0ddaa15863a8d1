import ArenaVariations.Files.Path
import ArenaVariations.Node.Basic

/-!
# Results and their names

A variation is written to a file that is named for its template, its number and its labels. Labels
are reduced to characters that are safe in file names. Every output folder holds an index of its
variations: a row for each of them, with its file name and its labels, separated by commas. A field
that holds a comma, a quote or a line break is put in quotes, and the quotes in it are doubled.

In a bulk run the variations of every template go to a folder of their own. These folders lie below
the output folder as the templates lie below the root, unless they are all put into the output
folder itself.
-/

namespace ArenaVariations

/-- The name of the copy of the template in an output folder. -/
def templateCopyName : String := "template.yaml"

/-- The name of the index of labels in an output folder. -/
def labelIndexName : String := "meta.csv"

/-- The end of the names of folders that hold variations. -/
def variationsSuffix : String := "_variations"

namespace Output

/-- Characters that file names keep. -/
def isSafe (c : Char) : Bool :=
  c.isAlphanum || c = '.' || c = '-'

/-- Replace each run of unsafe characters by a dash; `inRun` tells whether such a run is under
way. -/
def sanitizeFrom (inRun : Bool) : List Char → List Char
  | [] => []
  | c :: cs =>
    if isSafe c then c :: sanitizeFrom false cs
    else if inRun then sanitizeFrom true cs
    else '-' :: sanitizeFrom true cs

/-- A label as file names show it. -/
def sanitize (label : String) : String :=
  String.ofList (sanitizeFrom false label.toList)

/-- A number with at least five digits. -/
def paddedIndex (index : Nat) : String :=
  String.ofList (List.leftpad 5 '0' (Nat.toDigits 10 index))

/-- The file name of a variation. Numbers count from one; labels without any characters are left
out. -/
def variationName (stem : String) (index : Nat) (labels : Labels) : String :=
  let shown := (labels.map sanitize).filter (· ≠ "")
  "_".intercalate (stem :: paddedIndex index :: shown) ++ ".yaml"

/-- What the results of a template are named for. -/
def stem (template : Path) : String :=
  template.stem?.getD "template"

/-- The name of the folder for the variations of a template. -/
def folderName (template : Path) : String :=
  stem template ++ variationsSuffix

/-- The folder for the variations of a single template, unless another one is given. -/
def defaultFolder (template : Path) : Path :=
  Path.join ⟨"tmp"⟩ ⟨folderName template⟩

end Output

namespace Bulk

/-- The folder for the variations of a template. -/
def outputFolder (root template output : Path) (flatten : Bool) : Path :=
  let base :=
    if flatten then output
    else output.join (((template.parent?.getD root).below? root).getD ⟨""⟩)
  base.join ⟨Output.folderName template⟩

/-- The folder for the report on a failed template, next to the one for its variations. -/
def errorFolder (root template output : Path) (flatten : Bool) : Path :=
  (outputFolder root template output flatten).parent?.getD output

end Bulk

namespace LabelIndex

/-- Whether a field has to be quoted. -/
def needsQuotes (field : String) : Bool :=
  field.toList.any [',', '"', '\n', '\r'].contains

/-- A field of a row. -/
def field (s : String) : String :=
  if needsQuotes s then
    String.ofList ('"' :: s.toList.flatMap (fun c => if c = '"' then [c, c] else [c]) ++ ['"'])
  else s

/-- A row: the name of a file and its labels. -/
def row (name : String) (labels : Labels) : String :=
  ",".intercalate ((name :: labels).map field) ++ "\n"

end LabelIndex

end ArenaVariations
