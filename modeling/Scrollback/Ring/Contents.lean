import Scrollback.Archive.Copy
import Scrollback.Ring.Basic

/-!
This module contains the export of the text of a ring.
-/

namespace Scrollback

namespace Ring

variable {σ κ : Type} [ByteLog σ] [Sink κ]

def writeLines : List Row → EStateM String κ Unit
  | [] => pure ()
  | row :: rows => do
    Sink.write (String.ofList row.line).toUTF8
    writeLines rows

def windowRows (ring : Ring σ) : List Row :=
  (List.range' ring.writable (ring.finish - ring.writable)).map ring.window.row

/--
Write the text of all rows to a sink, from the oldest. A row that ends its paragraph ends in a line
break. The text of frozen rows is copied as it is stored.
-/
def writeContents : EStateM RingError (Ring σ × κ) Unit := fun (ring, sink) =>
  match Archive.copyText (ring.archive, sink) with
  | .error e (archive, sink) => .error e ({ ring with archive }, sink)
  | .ok () (archive, sink) =>
    let ring := { ring with archive }
    match writeLines ring.windowRows sink with
    | .error message sink => .error (.sink message) (ring, sink)
    | .ok () sink => .ok () (ring, sink)

end Ring

end Scrollback
