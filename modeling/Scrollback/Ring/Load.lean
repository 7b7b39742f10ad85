import Scrollback.Ring.Edit
import Scrollback.Position
import Scrollback.Row.Line
import Scrollback.Row.Wrap

/-!
This module contains the loading of plain text into a ring.
-/

namespace Scrollback

namespace Ring

variable {σ : Type} [ByteLog σ]

def rowsOfText (rules : TextRules) (columns : Nat) (text : List Char) : List Row :=
  (Text.lines text).flatMap fun line => (Row.ofLine rules line).wrap columns

/--
The rows of the text, unless a line cannot be split because its rows would be too large.
-/
def rowsOfText? (rules : TextRules) (columns : Nat) (text : List Char) : Option (List Row) := do
  let rows ← (Text.lines text).mapM fun line => (Row.ofLine rules line).wrap? columns
  return rows.flatten

def pushRows (cursor : Position) : List Row → EStateM RingError (Ring σ) Position
  | [] => pure cursor
  | row :: rows => do
    push row
    pushRows { line := (← get).finish - 1, column := row.size } rows

/--
Append plain text, and return where the cursor of a terminal rests after it.
-/
def load (rules : TextRules) (columns : Nat) (text : List Char) :
    EStateM RingError (Ring σ) Position := do
  let ring ← get
  match rowsOfText? rules columns text with
  | none => throw .capacity
  | some rows => pushRows { line := ring.finish, column := 0 } rows

end Ring

end Scrollback
