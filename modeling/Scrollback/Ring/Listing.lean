import Scrollback.Position
import Scrollback.Ring.Edit

/-!
This module contains the listing of a ring, which shows where each row begins and ends.
-/

namespace Scrollback

namespace Ring

def paddedIndex (index : Nat) : String :=
  let digits := toString index
  "".pushn ' ' (6 - digits.length) ++ digits

def listingLine (index : Nat) (atCursor softWrapped : Bool) (text : List Char) : String :=
  let cursorMark := if atCursor then ">" else " "
  let wrapMark := if softWrapped then "+" else " "
  cursorMark ++ paddedIndex index ++ wrapMark ++ "|" ++ String.ofList text ++ "|\n"

variable {σ : Type} [ByteLog σ]

def listingLines (cursor : Position) (index : Nat) :
    (count : Nat) → EStateM RingError (Ring σ) String
  | 0 => pure ""
  | count + 1 => do
    let softWrapped ← isSoftWrapped index
    let row ← row index
    let line := listingLine index (index = cursor.line) softWrapped row.text
    return line ++ (← listingLines cursor (index + 1) count)

def listing (cursor : Position) : EStateM RingError (Ring σ) String := do
  let ring ← get
  let lines ← listingLines cursor ring.start ring.size
  return lines ++ "cursor " ++ toString cursor ++ "\n"

end Ring

end Scrollback
