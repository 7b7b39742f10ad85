import Scrollback.Archive.Basic
import Scrollback.Sink

/-!
This module contains the export of the text of frozen rows.
-/

namespace Scrollback

namespace Archive

variable {σ κ : Type} [ByteLog σ] [Sink κ]

def chunkSize : Nat := 4096

def copyFrom (head start : Nat) : EStateM RingError (Archive σ × κ) Unit :=
  if start < head then do
    let size := min (head - start) chunkSize
    let bytes ← onArchive (onLog .text (ByteLog.read start size))
    write bytes
    copyFrom head (start + size)
  else
    pure ()
termination_by head - start
decreasing_by
  simp only [chunkSize]
  omega
where
  onArchive {α : Type} (action : EStateM RingError (Archive σ) α) :
      EStateM RingError (Archive σ × κ) α := fun (archive, sink) =>
    match action archive with
    | .ok a archive => .ok a (archive, sink)
    | .error e archive => .error e (archive, sink)
  write (bytes : ByteArray) : EStateM RingError (Archive σ × κ) Unit := fun (archive, sink) =>
    match Sink.write bytes sink with
    | .ok () sink => .ok () (archive, sink)
    | .error message sink => .error (.sink message) (archive, sink)

def copyText : EStateM RingError (Archive σ × κ) Unit := do
  let (archive, _) ← get
  copyFrom (ByteLog.head archive.text) (ByteLog.tail archive.text)

end Archive

end Scrollback
