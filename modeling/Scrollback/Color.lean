/-!
This module contains the colors a cell can be drawn in. A color is only a reference: which shade a
named or indexed color stands for is decided by whoever draws the cell.
-/

namespace Scrollback

inductive NamedColor where
  | black | red | green | yellow | blue | magenta | cyan | white
  | brightBlack | brightRed | brightGreen | brightYellow
  | brightBlue | brightMagenta | brightCyan | brightWhite
  | foreground | background | cursor
  | dimBlack | dimRed | dimGreen | dimYellow | dimBlue | dimMagenta | dimCyan | dimWhite
  | brightForeground | dimForeground
  deriving DecidableEq, Repr

namespace NamedColor

def all : List NamedColor := [
  .black, .red, .green, .yellow, .blue, .magenta, .cyan, .white,
  .brightBlack, .brightRed, .brightGreen, .brightYellow,
  .brightBlue, .brightMagenta, .brightCyan, .brightWhite,
  .foreground, .background, .cursor,
  .dimBlack, .dimRed, .dimGreen, .dimYellow, .dimBlue, .dimMagenta, .dimCyan, .dimWhite,
  .brightForeground, .dimForeground]

/--
The number that stands for a named color in stored records: the sixteen palette colors come first,
the others start at 256 so that they never meet an indexed color.
-/
def number : NamedColor → UInt16
  | .black => 0
  | .red => 1
  | .green => 2
  | .yellow => 3
  | .blue => 4
  | .magenta => 5
  | .cyan => 6
  | .white => 7
  | .brightBlack => 8
  | .brightRed => 9
  | .brightGreen => 10
  | .brightYellow => 11
  | .brightBlue => 12
  | .brightMagenta => 13
  | .brightCyan => 14
  | .brightWhite => 15
  | .foreground => 256
  | .background => 257
  | .cursor => 258
  | .dimBlack => 259
  | .dimRed => 260
  | .dimGreen => 261
  | .dimYellow => 262
  | .dimBlue => 263
  | .dimMagenta => 264
  | .dimCyan => 265
  | .dimWhite => 266
  | .brightForeground => 267
  | .dimForeground => 268

def ofNumber? (n : UInt16) : Option NamedColor :=
  all.find? (·.number == n)

theorem ofNumber?_number (c : NamedColor) : ofNumber? c.number = some c := by
  cases c <;> rfl

theorem number_of_ofNumber? {n : UInt16} {c : NamedColor} (h : ofNumber? n = some c) :
    c.number = n := by
  simpa using List.find?_some h

end NamedColor

inductive Color where
  | named (name : NamedColor)
  | indexed (index : UInt8)
  | rgb (red green blue : UInt8)
  deriving DecidableEq, Repr

end Scrollback
