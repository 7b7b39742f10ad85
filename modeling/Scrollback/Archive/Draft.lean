import Scrollback.Archive.Entry
import Scrollback.Archive.Run
import Scrollback.Row.Basic

/-!
This module contains what a row adds to the logs when it is frozen.
-/

namespace Scrollback

structure Draft where
  run : OpenRun
  text : String := ""
  changes : List StyleChange := []
  /--
  How many of the changes end before the first glyph, once there is one.
  -/
  leading : Option Nat := none
  ascii : Bool := true

namespace Draft

def switch (draft : Draft) (start : Nat) (style : Style) : Draft :=
  let (run, change) := draft.run.switch (start + draft.text.utf8ByteSize) style
  { draft with run, changes := draft.changes ++ change.toList }

def addBase (draft : Draft) (start : Nat) (cell : Cell) : Draft :=
  let draft := if cell.style = draft.run.style then draft else draft.switch start cell.style
  { draft with
    text := draft.text.push cell.char
    leading := draft.leading <|> some draft.changes.length
    ascii := draft.ascii && cell.isAscii }

/--
Append combining characters, which are a run of their own.
-/
def addMarks (draft : Draft) (start : Nat) (marks : List Char) : Draft :=
  if marks = [] then
    draft
  else
    let draft := draft.switch start Style.combining
    { draft with text := draft.text ++ String.ofList marks }

def addCell (draft : Draft) (start : Nat) (cell : Cell) : Draft :=
  if cell.fragment then
    draft
  else
    (draft.addBase start cell).addMarks start cell.markList

def close (draft : Draft) (softWrapped : Bool) : Draft :=
  if softWrapped then draft else { draft with text := draft.text.push '\n' }

def ofRow (run : OpenRun) (start : Nat) (row : Row) : Draft :=
  (row.cells.foldl (fun draft cell => draft.addCell start cell) ({ run } : Draft)).close row.softWrapped

def entry (draft : Draft) (start styleStart : Nat) (softWrapped : Bool) : RowEntry where
  textStart := .ofNat start
  styleStart := .ofNat (styleStart + draft.leading.getD draft.changes.length * StyleChange.size)
  softWrapped := softWrapped
  ascii := draft.ascii

def changeBytes (draft : Draft) : List UInt8 :=
  draft.changes.flatMap StyleChange.encode

end Draft

end Scrollback
