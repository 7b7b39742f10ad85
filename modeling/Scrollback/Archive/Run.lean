import Scrollback.Archive.StyleChange

/-!
This module contains the runs of text of one style that the attribute log divides the text log into.
The newest run is open: it has no entry in the attribute log until text of another style follows.
-/

namespace Scrollback

/--
The run at the head of the text log, which has no entry in the attribute log yet.
-/
structure OpenRun where
  style : Style := {}
  start : Nat := 0
  deriving DecidableEq, Repr

namespace OpenRun

/--
Start a run of another style at an offset, and return the entry that ends the run before, unless
that one is empty.
-/
def switch (run : OpenRun) (offset : Nat) (style : Style) : OpenRun × Option StyleChange :=
  ({ style, start := offset },
    if run.start < offset then some { textEnd := .ofNat offset, style := run.style } else none)

end OpenRun

structure StyleRun where
  style : Style
  finish : Option Nat
  /--
  The offset of the entry that ends the run, which is the head of the attribute log if the run is
  open.
  -/
  entry : Nat
  deriving DecidableEq, Repr

namespace StyleRun

def Covers (run : StyleRun) (offset : Nat) : Prop :=
  ∀ finish ∈ run.finish, offset < finish

instance (run : StyleRun) (offset : Nat) : Decidable (run.Covers offset) :=
  inferInstanceAs (Decidable (∀ finish ∈ run.finish, offset < finish))

end StyleRun

structure RunReader where
  next : Nat
  current : Option StyleRun := none
  openRun : OpenRun
  deriving DecidableEq, Repr

end Scrollback
