import ArenaVariations.Expansion.Count
import ArenaVariations.Report.Table
import ArenaVariations.Text.Basic

/-!
# Reports of counts

What a run tells about the templates it counted: a text for a single template, a table or JSON
for many, and a summary of those that failed.
-/

namespace ArenaVariations

/-- The outcome of counting a template. -/
inductive CountResult where
  | counted (count : Nat) (explanation : String)
  /-- The template could not be counted; the label says why. -/
  | failed (label : String)
deriving Repr, Inhabited

/-- The count of the template at a path. -/
structure CountReport where
  path : String
  result : CountResult
deriving Repr, Inhabited

namespace CountReport

/-- Whether the template could not be counted. -/
def isFailure (r : CountReport) : Bool :=
  match r.result with
  | .failed _ => true
  | .counted .. => false

/-- The label of a template that could not be counted, with its path. -/
def failure? (r : CountReport) : Option (String × String) :=
  match r.result with
  | .failed label => some (r.path, label)
  | .counted .. => none

/-- The row of a report. -/
def row (r : CountReport) : List String :=
  match r.result with
  | .counted count explanation => [r.path, toString count, explanation]
  | .failed label => [r.path, "error", label]

/-- Reports as a table. -/
def table (reports : List CountReport) : String :=
  Table.render ⟨[.left, .right, .left], ["Template", "Variations", "Explanation"],
    reports.map row⟩

/-- A text in JSON, or nothing. -/
def jsonOption (s : Option String) : String :=
  match s with
  | some s => Text.jsonString s
  | none => "null"

/-- The fields of a report in JSON. Counts are texts, because they may not fit a number. -/
def jsonFields (r : CountReport) : List (String × String) :=
  let (count, explanation, error) : Option String × Option String × Option String :=
    match r.result with
    | .counted count explanation => (some (toString count), some explanation, none)
    | .failed label => (none, none, some label)
  [("path", Text.jsonString r.path), ("count", jsonOption count),
    ("explanation", jsonOption explanation), ("error", jsonOption error)]

/-- A report in JSON, indented below a list. -/
def jsonObject (r : CountReport) : String :=
  "  \x7b\n" ++ ",\n".intercalate (r.jsonFields.map fun field =>
    "    " ++ Text.jsonString field.1 ++ ": " ++ field.2) ++ "\n  \x7d"

/-- Reports in JSON. -/
def json (reports : List CountReport) : String :=
  match reports with
  | [] => "[]"
  | _ => "[\n" ++ ",\n".intercalate (reports.map jsonObject) ++ "\n]"

end CountReport

namespace Report

/-- A count as a lower bound, if it has reached the limit. -/
def shownCount (count : Nat) : String :=
  if count = countLimit then s!"at least {count}" else toString count

/-- The count of a single template. -/
def single (count : Nat) (explanation : String) : String :=
  s!"Total possible variations: {shownCount count}\n{explanation}\n"

/-- How many templates were processed, and the paths and labels of those that failed. -/
def summary (processed : Nat) (failed : List (String × String)) : String :=
  s!"Processed {processed} template(s), {failed.length} failed\n"
    ++ String.join (failed.map fun entry => s!"  {entry.1}: {entry.2}\n")

end Report

end ArenaVariations
