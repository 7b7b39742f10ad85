import Scrollback.Cell
import Scrollback.Text.Rules

/-!
This module contains rows of cells and the ways to edit them.
-/

namespace Scrollback

/--
The number of bytes that the elements of an array must not exceed.
-/
def maxArraySize : Nat := 0x7fffffffffffffff

structure Row where
  cells : List Cell := []
  softWrapped : Bool := false
  deriving DecidableEq, Repr

namespace Row

instance : Inhabited Row := ⟨{}⟩

def empty : Row := {}

def size (row : Row) : Nat :=
  row.cells.length

def isEmpty (row : Row) : Bool :=
  row.cells.isEmpty

def push (row : Row) (cell : Cell) : Row :=
  { row with cells := row.cells ++ [cell] }

def markLast? (char : Char) : List Cell → Option (List Cell)
  | [] => none
  | cell :: cells =>
    match markLast? char cells with
    | some cells => some (cell :: cells)
    | none => if cell.fragment then none else some (cell.addMark char :: cells)

/--
Put a combining character on the last glyph of the row. Without a glyph to put it on it becomes a
glyph of its own, one column wide.
-/
def pushMark (row : Row) (char : Char) (style : Style) : Row :=
  match markLast? char row.cells with
  | some cells => { row with cells }
  | none => row.push (Cell.lead char (style.withColumns 1))

def pushGlyph (row : Row) (char : Char) (style : Style) : Row :=
  if style.columns = 0 then
    row.pushMark char style
  else
    { row with cells := row.cells ++ Cell.glyph char style }

def pushChar (rules : TextRules) (row : Row) (char : Char) (style : Style) : Row :=
  row.pushGlyph char (style.withColumns (rules.columns char))

/--
Append a group of characters that are read as one. The first decides on the width, the others
combine with it.
-/
def pushCluster (rules : TextRules) (row : Row) (style : Style) : List Char → Row
  | [] => row
  | base :: marks => marks.foldl (·.pushMark · style) (row.pushChar rules base style)

def pushText (rules : TextRules) (row : Row) (text : List Char) (style : Style) : Row :=
  (rules.clusters text).foldl (·.pushCluster rules style ·) row

def ofText (rules : TextRules) (text : List Char) (style : Style) : Row :=
  empty.pushText rules text style

def insert (row : Row) (column : Nat) (cell : Cell) : Row :=
  { row with cells := row.cells.insertIdx (min column row.size) cell }

def erase (row : Row) (column : Nat) : Row :=
  { row with cells := row.cells.eraseIdx column }

def truncate (row : Row) (column : Nat) : Row :=
  { row with cells := row.cells.take column }

def fill (row : Row) (cell : Cell) (size : Nat) : Row :=
  { row with cells := row.cells ++ List.replicate (size - row.size) cell }

def modifyCell? (row : Row) (column : Nat) (f : Cell → Cell) : Option Row :=
  if column < row.size then some { row with cells := row.cells.modify column f } else none

def text (row : Row) : List Char :=
  row.cells.flatMap fun cell => if cell.fragment then [] else cell.chars

def line (row : Row) : List Char :=
  if row.softWrapped then row.text else row.text ++ ['\n']

end Row

end Scrollback
