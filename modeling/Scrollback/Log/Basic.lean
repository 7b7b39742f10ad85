/-!
This module contains the interface of append-only byte logs. Bytes are appended at the head of a log
and released at its tail, and every byte keeps the offset that it was appended at.
-/

namespace Scrollback

inductive LogError where
  | outOfRange (offset size tail head : Nat)
  | io (message : String)
  deriving DecidableEq, Repr

namespace LogError

def message : LogError → String
  | .outOfRange offset size tail head =>
    s!"read of {size} bytes at {offset} outside retained range {tail}..{head}"
  | .io message => message

end LogError

/--
An append-only byte log that holds the bytes from `tail` to before `head`.

Appending, reading and creating a log may fail. They may also change the log in ways that its
contents do not show, such as the position in a file.
-/
class ByteLog (σ : Type) where
  tail : σ → Nat
  head : σ → Nat
  append (bytes : ByteArray) : EStateM LogError σ Nat
  read (offset size : Nat) : EStateM LogError σ ByteArray
  reset (log : σ) (offset : Nat) : σ
  truncate (log : σ) (offset : Nat) : σ
  advanceTail (log : σ) (offset : Nat) : σ
  fresh : EStateM LogError σ σ

namespace ByteLog

def clamp (tail head offset : Nat) : Nat :=
  max tail (min offset head)

theorem le_clamp (tail head offset : Nat) : tail ≤ clamp tail head offset := by
  unfold clamp; omega

theorem clamp_le {tail head : Nat} (h : tail ≤ head) (offset : Nat) :
    clamp tail head offset ≤ head := by
  unfold clamp; omega

theorem le_add_size_empty (offset : Nat) : offset ≤ offset + ByteArray.empty.size :=
  Nat.le_add_right _ _

end ByteLog

end Scrollback
