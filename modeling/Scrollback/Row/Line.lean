import Scrollback.Row.Basic
import Scrollback.Text.Control
import Scrollback.Text.Lines

/-!
This module contains the rows that lines of plain text are shown in.
-/

namespace Scrollback

namespace Row

def tabWidth : Nat := 8

def fillToTabStop (row : Row) : Row :=
  row.fill Cell.blank ((row.size / tabWidth + 1) * tabWidth)

def pushPart (rules : TextRules) (row : Row) (part : List Char) : Row :=
  row.pushText rules (part.filter fun char => !isControl char) {}

def ofLine (rules : TextRules) (line : List Char) : Row :=
  match Text.splitOn '\t' line with
  | [] => empty
  | first :: parts =>
    parts.foldl (fun row part => row.fillToTabStop.pushPart rules part) (empty.pushPart rules first)

end Row

end Scrollback
