import Scrollback.Archive.Basic
import Scrollback.Row.Basic

/-!
This module contains the reading of frozen rows.
-/

namespace Scrollback

namespace Archive

variable {σ : Type} [ByteLog σ]

/--
The run that covers an offset in the text log, which is not before the last one asked for.

`head` is the head of the attribute log. It is an error if the entries end before the open run
begins.
-/
def runAt (head : Nat) (reader : RunReader) (offset : Nat) :
    EStateM RingError (Archive σ) (StyleRun × RunReader) :=
  match reader.current.filter (·.Covers offset) with
  | some run => pure (run, reader)
  | none =>
    if reader.openRun.start ≤ offset then
      let run : StyleRun := { style := reader.openRun.style, finish := none, entry := head }
      pure (run, { reader with current := some run })
    else if head ≤ reader.next then
      throw (.corrupt .attribute reader.next)
    else do
      let change ← readChange reader.next
      let run : StyleRun :=
        { style := change.style, finish := some change.textEnd.toNat, entry := reader.next }
      runAt head { reader with next := reader.next + StyleChange.size, current := some run } offset
termination_by head - reader.next
decreasing_by
  simp only [StyleChange.size]
  omega

def readGlyphs (head : Nat) (reader : RunReader) (offset : Nat) (row : Row) :
    List Char → EStateM RingError (Archive σ) Row
  | [] => pure row
  | char :: chars => do
    let (run, reader) ← runAt head reader offset
    readGlyphs head reader (offset + char.utf8Size) (row.pushGlyph char run.style) chars

def rowText? (bytes : ByteArray) (softWrapped : Bool) : Option (List Char) :=
  if softWrapped then
    (String.fromUTF8? bytes).map String.toList
  else if bytes[bytes.size - 1]? = some 10 then
    (String.fromUTF8? (bytes.extract 0 (bytes.size - 1))).map String.toList
  else
    none

def read (index : Nat) : EStateM RingError (Archive σ) (RowEntry × Row) := do
  let entry ← readEntry index
  let start := entry.textStart.toNat
  let finish ← textEnd index
  if finish < start then
    throw (.corrupt .row (RowEntry.offsetOf index))
  let bytes ← onLog .text (ByteLog.read start (finish - start))
  match rowText? bytes entry.softWrapped with
  | none => throw (.corrupt .text start)
  | some chars =>
    let archive ← get
    let reader : RunReader := { next := entry.styleStart.toNat, openRun := archive.openRun }
    let row ← readGlyphs (ByteLog.head archive.attributes) reader start
      { softWrapped := entry.softWrapped } chars
    return (entry, row)

end Archive

end Scrollback
