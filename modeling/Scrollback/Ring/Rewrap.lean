import Scrollback.Layout.Paragraph
import Scrollback.Ring.Basic

/-!
This module contains the change of the number of columns. Rows that continue on the next are joined
and split again, line breaks stay where they are, and markers stay on their characters.
-/

namespace Scrollback

namespace Ring

variable {σ : Type} [ByteLog σ]

def anchor (ring : Ring σ) (marker : Position) : EStateM RingError (Ring σ) Anchor :=
  if ring.finish ≤ marker.line then
    pure (.below (marker.line - ring.finish) marker.column)
  else do
    let (line, column) :=
      if marker.line < ring.start then (ring.start, 0) else (marker.line, marker.column)
    let (entry, row) ← onArchive (Archive.read line)
    return Anchor.locate entry.softWrapped column 0 entry.textStart.toNat row.cells

def appendEntries : List RowEntry → EStateM LogError σ Unit
  | [] => pure ()
  | entry :: entries => do
    discard <| ByteLog.append entry.encode.toByteArray
    appendEntries entries

def rowLog (index : Nat) (entries : List RowEntry) : EStateM RingError (Archive σ) σ := do
  let log ← Archive.onLog .row ByteLog.fresh
  match appendEntries entries (ByteLog.reset log (RowEntry.offsetOf index)) with
  | .ok () log => return log
  | .error e _ => throw (.log .row e)

/--
Lay out all rows anew in the given number of columns, at least one, and return the places of the
markers after that.

Markers below the newest row keep their distance from it. The oldest rows are dropped if there are
too many. If anything fails, rows may get frozen, but none is changed.
-/
def rewrap (columns : Nat) (markers : List Position) :
    EStateM RingError (Ring σ) (List Position) := do
  if (← get).isEmpty then
    return markers
  let ring ← get
  freezeRows (ring.finish - ring.writable)
  let ring ← get
  let anchors ← markers.mapM ring.anchor
  let layout ← onArchive <|
    (Layout.ofAnchors (max columns 1) anchors).addRows ring.start ring.finish
  let base := ring.start
  let finish := base + layout.entries.size
  let start := max (finish - ring.maxRows) base
  let rows ← onArchive (rowLog base layout.entries.toList)
  modify fun ring =>
    let archive := { ring.archive with rows }
    { ring with
      start
      writable := finish
      finish
      archive :=
        match layout.entries[start - base]? with
        | some entry => archive.advanceTails start entry
        | none => archive
      cache := none }
  return (anchors.zip layout.placed.toList).map fun (anchor, placed) =>
    anchor.resolve base start finish placed

end Ring

end Scrollback
