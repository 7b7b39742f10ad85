/-!
This module contains the sinks that text is written to.
-/

namespace Scrollback

class Sink (κ : Type) where
  write (bytes : ByteArray) : EStateM String κ Unit

instance : Sink ByteArray where
  write bytes := modify (· ++ bytes)

structure BoundedSink where
  written : ByteArray := .empty
  limit : Option Nat

instance : Sink BoundedSink where
  write bytes := fun sink =>
    let written := sink.written ++ bytes
    if sink.limit.all (written.size ≤ ·) then
      .ok () { sink with written }
    else
      .error "sink closed" sink

end Scrollback
