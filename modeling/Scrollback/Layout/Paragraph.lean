import Scrollback.Archive.Read
import Scrollback.Layout.Basic

/-!
This module contains the layout of paragraphs. The text of a paragraph is never written again: its
rows are entries that divide the text at other places.
-/

namespace Scrollback

namespace Layout

variable {σ : Type} [ByteLog σ]

def addChunks (layout : Layout) (run : StyleRun) (offset stop : Nat) : Layout :=
  if offset < stop then
    let width := run.style.columns.toNat
    let layout := if layout.overflows width then layout.openRow offset run.entry true else layout
    let count := min (max ((layout.columns - layout.column) / width) 1) (stop - offset)
    let columnOf place := layout.column + (max place offset - offset) * width
    addChunks ((layout.placeBefore (offset + count) columnOf).take (count * width))
      run (offset + count) stop
  else
    layout
termination_by stop - offset
decreasing_by omega

/--
Lay out the text from `offset` to before `stop`, whose characters take up one byte each, a run at a
time and without reading it.
-/
def addAscii (head : Nat) (reader : RunReader) (layout : Layout) (offset stop : Nat) :
    EStateM RingError (Archive σ) Layout :=
  if offset < stop then do
    let (run, reader) ← Archive.runAt head reader offset
    -- A run covers at least the offset that it was looked up for.
    let runStop := max (offset + 1) (min (run.finish.getD stop) stop)
    let layout :=
      if run.style.columns = 0 then
        layout.placeAtEnd runStop
      else
        layout.addChunks run offset runStop
    addAscii head reader layout runStop stop
  else
    pure layout
termination_by stop - offset
decreasing_by omega

def addChars (head : Nat) (reader : RunReader) (layout : Layout) (offset : Nat) :
    List Char → EStateM RingError (Archive σ) Layout
  | [] => pure layout
  | char :: chars => do
    let (run, reader) ← Archive.runAt head reader offset
    let width := run.style.columns.toNat
    let layout :=
      if 0 < width && layout.overflows width then layout.openRow offset run.entry false else layout
    let next := offset + char.utf8Size
    addChars head reader ((layout.placeAtEnd next).take width) next chars

def addText (head : Nat) (reader : RunReader) (layout : Layout) (offset stop : Nat) :
    EStateM RingError (Archive σ) Layout := do
  let bytes ← Archive.onLog .text (ByteLog.read offset (stop - offset))
  match String.fromUTF8? bytes with
  | none => throw (.corrupt .text offset)
  | some text => addChars head reader layout offset text.toList

def addParagraph (layout : Layout) (first : RowEntry) (stop : Nat) (ascii : Bool) :
    EStateM RingError (Archive σ) Layout := do
  let archive ← get
  let head := ByteLog.head archive.attributes
  let offset := first.textStart.toNat
  let reader : RunReader := { next := first.styleStart.toNat, openRun := archive.openRun }
  let (run, reader) ← Archive.runAt head reader offset
  let layout := layout.openRow offset run.entry ascii
  if ascii then
    addAscii head reader layout offset stop
  else
    addText head reader layout offset stop

/--
Follow the row with the given index and entry to the last row of its paragraph, which is before
`finish`. Returns how many rows follow, the entry of the last one, and whether all are 7-bit.
-/
def lastOfParagraph (finish index : Nat) (entry : RowEntry) :
    EStateM RingError (Archive σ) (Nat × RowEntry × Bool) :=
  if entry.softWrapped ∧ index + 1 < finish then do
    let next ← Archive.readEntry (index + 1)
    let (count, last, ascii) ← lastOfParagraph finish (index + 1) next
    return (count + 1, last, entry.ascii && ascii)
  else
    pure (0, entry, entry.ascii)
termination_by finish - index
decreasing_by omega

def addRows (layout : Layout) (index finish : Nat) : EStateM RingError (Archive σ) Layout :=
  if index < finish then do
    let first ← Archive.readEntry index
    let (count, last, ascii) ← lastOfParagraph finish index first
    let stop ← Archive.textEnd (index + count)
    let contentStop ←
      if last.softWrapped then
        pure stop
      else if last.textStart.toNat < stop then
        pure (stop - 1)
      else
        throw (.corrupt .row (RowEntry.offsetOf (index + count)))
    let layout ← layout.addParagraph first contentStop ascii
    addRows ((layout.placeAtEnd stop).closeRow last.softWrapped) (index + count + 1) finish
  else
    pure layout.placeRest
termination_by finish - index
decreasing_by omega

end Layout

end Scrollback
