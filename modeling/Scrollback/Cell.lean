import Scrollback.Style

/-!
This module contains the cells that rows are made of. A glyph is a lead cell; if it is wider than
one column, fragment cells fill its remaining columns.
-/

namespace Scrollback

structure Cell where
  char : Char := ' '
  style : Style := {}
  fragment : Bool := false
  /--
  Combining characters on the glyph. A cell that never had any holds `none`, which differs from
  an empty list.
  -/
  marks : Option (List Char) := none
  deriving DecidableEq, Repr

namespace Cell

instance : Inhabited Cell := ⟨{}⟩

def blank : Cell := {}

def lead (char : Char) (style : Style) : Cell :=
  { char, style }

def fragmentOf (lead : Cell) : Cell :=
  { char := lead.char, style := lead.style.withColumns 1, fragment := true }

def glyph (char : Char) (style : Style) : List Cell :=
  let first := lead char style
  first :: List.replicate (style.columns.toNat - 1) first.fragmentOf

def isEmpty (cell : Cell) : Bool :=
  cell == blank

def width (cell : Cell) : Nat :=
  if cell.fragment then 0 else cell.style.columns.toNat

def markList (cell : Cell) : List Char :=
  cell.marks.getD []

def addMark (cell : Cell) (char : Char) : Cell :=
  { cell with marks := some (cell.markList ++ [char]) }

def chars (cell : Cell) : List Char :=
  cell.char :: cell.markList

def isAscii (cell : Cell) : Bool :=
  ' ' ≤ cell.char && cell.char ≤ '~' && cell.markList.isEmpty

def textSize (cell : Cell) : Nat :=
  (String.ofList cell.chars).utf8ByteSize

end Cell

end Scrollback
