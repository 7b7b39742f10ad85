import Scrollback.Log.Basic

/-!
This module contains the ways in which an operation on a ring can fail.
-/

namespace Scrollback

inductive LogName where
  | row | text | attribute
  deriving DecidableEq, Repr

namespace LogName

instance : ToString LogName where
  toString
    | .row => "row"
    | .text => "text"
    | .attribute => "attribute"

end LogName

inductive IndexUse where
  | row | insert | dropBefore
  deriving DecidableEq, Repr

inductive RingError where
  | log (name : LogName) (cause : LogError)
  | corrupt (name : LogName) (offset : Nat)
  | alloc (rows : Nat)
  /--
  An array would have to be larger than any can be.
  -/
  | capacity
  | sink (message : String)
  | outside (use : IndexUse) (index start finish : Nat)
  deriving DecidableEq, Repr

namespace RingError

def message : RingError → String
  | .log name cause => s!"{name} log: {cause.message}"
  | .corrupt name offset => s!"{name} log: corrupt data at offset {offset}"
  | .alloc rows => s!"cannot allocate a window of {rows} rows"
  | .capacity => "capacity overflow"
  | .sink message => s!"export failed: {message}"
  | .outside .row index start finish => s!"row {index} outside {start}..{finish}"
  | .outside .insert index start finish => s!"insert at {index} outside {start}..={finish}"
  | .outside .dropBefore index start finish =>
    s!"drop before {index} outside {start}..={finish}"

end RingError

end Scrollback
