import Scrollback.Row.Basic

/-!
This module contains the greedy layout of a row: each piece takes the glyphs that still fit, and
a glyph that is too wide for any piece gets one of its own.
-/

namespace Scrollback

namespace Row

/--
Split cells into the piece that is under construction and the pieces after it.

`column` columns of the piece are taken. A glyph goes to the next piece if it does not fit, unless
nothing stands before it. Fragments stay with their glyph.
-/
def wrapCells (columns : Nat) (column : Nat) : List Cell → List Cell × List (List Cell)
  | [] => ([], [])
  | cell :: cells =>
    if cell.fragment then
      let (piece, later) := wrapCells columns column cells
      (cell :: piece, later)
    else if 0 < column ∧ columns < column + cell.width then
      let (piece, later) := wrapCells columns cell.width cells
      ([], (cell :: piece) :: later)
    else
      let (piece, later) := wrapCells columns (column + cell.width) cells
      (cell :: piece, later)

def ofPieces (softWrapped : Bool) (piece : List Cell) : List (List Cell) → List Row
  | [] => [{ cells := piece, softWrapped }]
  | next :: later => { cells := piece, softWrapped := true } :: ofPieces softWrapped next later

def wrap (row : Row) (columns : Nat) : List Row :=
  let (piece, later) := wrapCells (max columns 1) 0 row.cells
  ofPieces row.softWrapped piece later

/--
The number of bytes that a cell takes up in a row.
-/
def cellSize : Nat := 32

def fits (cells : Nat) : Bool :=
  cells * cellSize ≤ maxArraySize

/--
Split a row as `wrap` does. Each of the rows is made with room for `columns` cells, whether it needs
that or not, so that there are none if this is more than a row can have room for.
-/
def wrap? (row : Row) (columns : Nat) : Option (List Row) :=
  if fits (max columns 1) then some (row.wrap columns) else none

end Row

end Scrollback
