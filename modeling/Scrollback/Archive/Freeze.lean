import Scrollback.Archive.Basic
import Scrollback.Archive.Draft

/-!
This module contains the freezing of rows.
-/

namespace Scrollback

namespace Archive

variable {σ : Type} [ByteLog σ]

def appendDraft (draft : Draft) (entry : RowEntry) : EStateM RingError (Archive σ) Unit := do
  discard <| onLog .attribute (ByteLog.append draft.changeBytes.toByteArray)
  discard <| onLog .text (ByteLog.append draft.text.toUTF8)
  discard <| onLog .row (ByteLog.append entry.encode.toByteArray)

/--
Append a row as the newest frozen one. If a log fails, the others are cut back to what they were.
-/
def freeze (row : Row) : EStateM RingError (Archive σ) Unit := fun archive =>
  let openRun := archive.openRun
  let start := ByteLog.head archive.text
  let styleStart := ByteLog.head archive.attributes
  let draft := Draft.ofRow openRun start row
  let entry := draft.entry start styleStart row.softWrapped
  match appendDraft draft entry { archive with openRun := draft.run } with
  | .ok () archive => .ok () archive
  | .error e ⟨rows, text, attributes, _⟩ =>
    .error e {
      rows
      text := ByteLog.truncate text start
      attributes := ByteLog.truncate attributes styleStart
      openRun }

end Archive

end Scrollback
