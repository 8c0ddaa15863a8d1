import ArenaVariations.Text.Basic
import ArenaVariations.Text.Width

/-!
# Tables

A table is drawn with lines around its cells. Every column is as wide as its widest line and has a
blank on either side; a cell of several lines makes its row higher.
-/

namespace ArenaVariations

/-- On which side of a column its text stands. -/
inductive Alignment where
  | left
  | right
deriving DecidableEq, Repr, Inhabited

/-- A heading, rows of cells, and how each column is aligned. -/
structure Table where
  alignments : List Alignment
  heading : List String
  rows : List (List String)
deriving Repr, Inhabited

namespace Table

/-- The lines of a cell. -/
def cellLines (cell : String) : List String :=
  (Text.splitLines cell.toList).map String.ofList

/-- The width of a cell's widest line. -/
def cellWidth (cell : String) : Nat :=
  ((cellLines cell).map Text.width).foldl max 0

/-- The widths of the columns. -/
def widths (t : Table) : List Nat :=
  t.rows.foldl (fun ws row => List.zipWith max ws (row.map cellWidth)) (t.heading.map cellWidth)

/-- So many copies of a character. -/
def copies (n : Nat) (c : Char) : String :=
  String.ofList (List.replicate n c)

/-- A line of a cell in its column, with the blanks around it. -/
def pad (alignment : Alignment) (width : Nat) (line : String) : String :=
  let gap := copies (width - Text.width line) ' '
  match alignment with
  | .left => " " ++ line ++ gap ++ " "
  | .right => " " ++ gap ++ line ++ " "

/-- A horizontal line through a table. -/
def rule (t : Table) (start cross finish : String) (fill : Char) : String :=
  start ++ cross.intercalate (t.widths.map fun w => copies (w + 2) fill) ++ finish

/-- A line of a row: the given line of each cell, or nothing where a cell has none. -/
def rowLine (t : Table) (row : List String) (index : Nat) : String :=
  let shown := row.map fun cell => (cellLines cell)[index]?.getD ""
  "│" ++ "┆".intercalate
    (List.zipWith (fun layout line => pad layout.1 layout.2 line) (t.alignments.zip t.widths) shown)
    ++ "│"

/-- The lines of a row. -/
def rowLines (t : Table) (row : List String) : List String :=
  let height := (row.map fun cell => (cellLines cell).length).foldl max 0
  (List.range height).map (t.rowLine row)

/-- The lines of all rows, with lines between them. -/
def bodyLines (t : Table) : List String :=
  let blocks := t.rows.map t.rowLines
  [t.rule "├" "┼" "┤" '╌'].intercalate blocks

/-- The lines of a table. -/
def lines (t : Table) : List String :=
  [t.rule "┌" "┬" "┐" '─'] ++ t.rowLines t.heading ++ [t.rule "╞" "╪" "╡" '═']
    ++ t.bodyLines ++ [t.rule "└" "┴" "┘" '─']

/-- A table as text. -/
def render (t : Table) : String :=
  String.join (t.lines.map (· ++ "\n"))

end Table

end ArenaVariations
