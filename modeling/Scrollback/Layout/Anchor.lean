import Scrollback.Cell
import Scrollback.Position

/-!
This module contains the places that markers hold on to while rows are laid out anew.
-/

namespace Scrollback

inductive Anchor where
  /--
  `cells` columns to the right of where the glyph is shown whose text starts at `offset`. The offset
  after the last glyph stands for the end of the row.
  -/
  | text (offset cells : Nat)
  | below (rows column : Nat)
  deriving DecidableEq, Repr

namespace Anchor

/--
The anchor of the column `target` of a row.

`cells` are the cells of the row from `column` on, and their text starts at `offset`. A place to the
right of a row that continues on the next one is the start of that one.
-/
def locate (softWrapped : Bool) (target column offset : Nat) : List Cell → Anchor
  | [] => .text offset (if softWrapped then 0 else target - column)
  | cell :: cells =>
    if cell.fragment then
      locate softWrapped target column offset cells
    else if target < column + cell.width then
      .text offset (target - column)
    else
      locate softWrapped target (column + cell.width) (offset + cell.textSize) cells

/--
The place of a marker after the ring got another layout.

`base` is the index of the first row of the layout, `start` the one of the oldest row that is kept
and `finish` the one after the newest. `placed` is where the layout shows the anchor, with rows
counted from its first. Markers on rows that are not kept go to the start of the oldest.
-/
def resolve (base start finish : Nat) (placed : Option (Nat × Nat)) : Anchor → Position
  | .below rows column => { line := add64 finish rows, column }
  | .text _ _ =>
    match placed with
    | some (row, column) =>
      if start ≤ base + row then { line := base + row, column } else { line := start, column := 0 }
    | none => { line := start, column := 0 }

end Anchor

end Scrollback
