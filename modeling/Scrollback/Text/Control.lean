/-!
This module contains the control characters.
-/

namespace Scrollback

def isControl (char : Char) : Bool :=
  char.toNat < 0x20 || (0x7f ≤ char.toNat && char.toNat < 0xa0)

end Scrollback
