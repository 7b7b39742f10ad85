import Scrollback.Archive.Read

/-!
This module contains the removal of the newest frozen rows.
-/

namespace Scrollback

namespace Archive

variable {σ : Type} [ByteLog σ]

/--
Look for the run that covers the text before an offset, among the entries from `entry` on.

`start` is where the run that ends at `entry` starts. The result is the offset of the first entry
that goes, and the run to open again. There is none if the open run covers the text already.
-/
def reopenedRun (head cut entry start : Nat) :
    EStateM RingError (Archive σ) (Nat × Option OpenRun) :=
  if entry < head then do
    let change ← readChange entry
    if cut < change.textEnd.toNat then
      return (entry, some { style := change.style, start })
    else
      reopenedRun head cut (entry + StyleChange.size) change.textEnd.toNat
  else
    pure (entry, none)
termination_by head - entry
decreasing_by
  simp only [StyleChange.size]
  omega

def rewind (index : Nat) (entry : RowEntry) : EStateM RingError (Archive σ) Unit := do
  let cut := entry.textStart.toNat
  let first := entry.styleStart.toNat
  let archive ← get
  let head := ByteLog.head archive.attributes
  let start ←
    if ByteLog.tail archive.attributes < first then do
      let change ← readChange (first - StyleChange.size)
      pure change.textEnd.toNat
    else
      pure (ByteLog.tail archive.text)
  let (entryEnd, reopened) ← reopenedRun head cut first start
  modify fun archive => {
    rows := ByteLog.truncate archive.rows (RowEntry.offsetOf index)
    text := ByteLog.truncate archive.text cut
    attributes := ByteLog.truncate archive.attributes entryEnd
    openRun := reopened.getD archive.openRun }

def thaw (index : Nat) : EStateM RingError (Archive σ) Row := do
  let (entry, row) ← read index
  rewind index entry
  return row

def truncate (index : Nat) : EStateM RingError (Archive σ) Unit := do
  let entry ← readEntry index
  rewind index entry

end Archive

end Scrollback
