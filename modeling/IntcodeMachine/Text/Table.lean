/-
**Tables of two columns.**

A table has two columns, each with a title and an alignment.  The entries of a row may have several
lines; the row is then as tall as its taller entry.  A column is as wide as its longest line.  A
rule stands below the titles and below the last row.

Main definitions:

* `Align`, `Align.pad` — how a line is set within its column;
* `Column`, `Table` — the parts of a table;
* `Table.lines` — **the lines of a table**;
* `Table.text` — the same as one text.
-/

set_option relaxedAutoImplicit false
set_option autoImplicit false

namespace IntcodeMachine

/-- On which side the lines of a column are flush. -/
inductive Align where
  | left
  | right
deriving DecidableEq

namespace Align

/-- A line filled up with spaces to a width, counted in characters; a longer line is not cut. -/
def pad (align : Align) (width : Nat) (line : String) : String :=
  let fill := "".pushn ' ' (width - line.length)
  match align with
  | left => line ++ fill
  | right => fill ++ line

end Align

/-- A column: its title, and how its lines are set. -/
structure Column where
  /-- The line at the top. -/
  title : String
  /-- The side on which the lines are flush, the title included. -/
  align : Align

namespace Column

/-- The width of a column: that of its longest line, the title included. -/
def width (column : Column) (entries : List (List String)) : Nat :=
  ((column.title :: entries.flatten).map String.length).foldl max 0

end Column

/-- A table of two columns. -/
structure Table where
  /-- The column on the left. -/
  first : Column
  /-- The column on the right. -/
  second : Column
  /-- The rows: the lines of the entry on the left, and of the entry on the right. -/
  rows : List (List String × List String)

namespace Table

/-- One line across both columns. -/
def line (t : Table) (w₁ w₂ : Nat) (a b : String) : String :=
  "  " ++ t.first.align.pad w₁ a ++ " │ " ++ t.second.align.pad w₂ b ++ "  "

/-- The lines of a row; the shorter entry is filled up with empty lines. -/
def rowLines (t : Table) (w₁ w₂ : Nat) (row : List String × List String) : List String :=
  (List.range (max row.1.length row.2.length)).map fun k =>
    t.line w₁ w₂ (row.1.getD k "") (row.2.getD k "")

/-- A rule across both columns, with a mark where it meets the line between them. -/
def rule (w₁ w₂ : Nat) (mark : String) : String :=
  " " ++ "".pushn '─' (w₁ + 2) ++ mark ++ "".pushn '─' (w₂ + 2) ++ " "

/-- The lines of a table: titles, rule, rows, rule. -/
def lines (t : Table) : List String :=
  let w₁ := t.first.width (t.rows.map Prod.fst)
  let w₂ := t.second.width (t.rows.map Prod.snd)
  [t.line w₁ w₂ t.first.title t.second.title, rule w₁ w₂ "┼"] ++
    t.rows.flatMap (t.rowLines w₁ w₂) ++ [rule w₁ w₂ "┴"]

/-- A table as one text; every line is ended, the last one too. -/
def text (t : Table) : String := String.join (t.lines.map (· ++ "\n"))

end Table

end IntcodeMachine
