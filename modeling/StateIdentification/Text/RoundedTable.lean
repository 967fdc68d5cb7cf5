/-!
# Tables with rounded corners

A table is drawn with box characters. Each column is as wide as its widest cell, a blank stands on
both sides of a cell, and a line separates the first row from the others.

## Main definitions

- `RoundedTable`: a row of headings and the rows below it.
- `RoundedTable.text`: the drawing of a table.
-/

namespace StateIdentification

/-- A table of texts; every row has as many cells as there are headings. -/
structure RoundedTable where
  headings : List String
  rows : List (List String)

namespace RoundedTable

/-- The width of every column in characters. -/
def widths (t : RoundedTable) : List Nat :=
  t.rows.foldl (fun ws row => ws.zipWith max (row.map String.length))
    (t.headings.map String.length)

/-- A horizontal line with the given ends and crossings. -/
def rule (widths : List Nat) (left crossing right : String) : String :=
  left ++ String.intercalate crossing (widths.map fun w => "".pushn '─' (w + 2)) ++ right

/-- A row of left-aligned cells. -/
def line (widths : List Nat) (cells : List String) : String :=
  let padded := cells.zipWith (fun c w => " " ++ c.pushn ' ' (w - c.length) ++ " ") widths
  "│" ++ String.intercalate "│" padded ++ "│"

/-- The drawing; a table without rows ends with the line below its headings. -/
def text (t : RoundedTable) : String :=
  let ws := t.widths
  let bottom := if t.rows.isEmpty then [] else [rule ws "╰" "┴" "╯"]
  String.intercalate "\n" <|
    [rule ws "╭" "┬" "╮", line ws t.headings, rule ws "├" "┼" "┤"] ++
      t.rows.map (line ws) ++ bottom

end RoundedTable

end StateIdentification
