import Scrollback.Ring.Basic

/-!
This module contains the ways to drop rows at either end of a ring and to change its limits.
-/

namespace Scrollback

namespace Ring

variable {σ : Type}

def setVisibleRows (rows : Nat) (ring : Ring σ) : Ring σ :=
  { ring with visibleRows := rows }

variable [ByteLog σ]

def resize (maxRows : Nat) : EStateM RingError (Ring σ) Unit := do
  modify fun ring => { ring with maxRows := max maxRows 1 }
  let ring ← get
  if ring.maxRows < ring.size then
    dropBefore (ring.finish - ring.maxRows)

def shrink (rows : Nat) : EStateM RingError (Ring σ) Unit := do
  let ring ← get
  if rows < ring.size then
    let finish := ring.start + rows
    if finish < ring.writable then
      onArchive (Archive.truncate finish)
      modify fun ring => { ring with writable := finish }.dropStaleCache
    modify fun ring => { ring with finish }

def dropScrollback (index : Nat) : EStateM RingError (Ring σ) Unit := do
  requireBound .dropBefore index
  if (← get).start < index then
    dropBefore index

def clear (ring : Ring σ) : Ring σ :=
  { ring with
    start := ring.finish
    writable := ring.finish
    archive := ring.archive.reset ring.finish }.dropStaleCache

end Ring

end Scrollback
