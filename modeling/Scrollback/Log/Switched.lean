import Scrollback.Log.Basic

/-!
This module contains byte logs that can be made to fail.
-/

namespace Scrollback

/--
A byte log with switches. While a switch is on, every call of its kind fails and does nothing.
-/
structure SwitchedLog (σ : Type) where
  log : σ
  failReads : Bool := false
  failAppends : Bool := false
  failFresh : Bool := false

namespace SwitchedLog

variable {σ : Type}

def injected : LogError :=
  .io "injected"

def unlessOn {α : Type} (switch : SwitchedLog σ → Bool) (action : EStateM LogError σ α) :
    EStateM LogError (SwitchedLog σ) α := fun log =>
  if switch log then
    .error injected log
  else
    match action log.log with
    | .ok a inner => .ok a { log with log := inner }
    | .error e inner => .error e { log with log := inner }

instance [ByteLog σ] : ByteLog (SwitchedLog σ) where
  tail log := ByteLog.tail log.log
  head log := ByteLog.head log.log
  append bytes := unlessOn failAppends (ByteLog.append bytes)
  read offset size := unlessOn failReads (ByteLog.read offset size)
  reset log offset := { log with log := ByteLog.reset log.log offset }
  truncate log offset := { log with log := ByteLog.truncate log.log offset }
  advanceTail log offset := { log with log := ByteLog.advanceTail log.log offset }
  fresh := do
    let inner ← unlessOn failFresh ByteLog.fresh
    return { (← get) with log := inner }

end SwitchedLog

end Scrollback
