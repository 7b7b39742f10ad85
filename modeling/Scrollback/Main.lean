import Scrollback.Program.Basic
import Scrollback.Unicode.Rules

/-!
This module contains the entry point of the program.
-/

namespace Scrollback

def processHost : Program.Host IO where
  readFile path := do
    try
      return some (← IO.FS.readBinFile path)
    catch _ =>
      return none
  readInput := do (← IO.getStdin).readBinToEnd
  environment name := IO.getEnv name

end Scrollback

def main (arguments : List String) : IO UInt32 := do
  match ← Scrollback.Program.run Scrollback.Unicode.rules Scrollback.processHost arguments with
  | .printed output =>
    (← IO.getStdout).write output
    return 0
  | .failed failure =>
    IO.eprintln s!"Error: {failure.message}"
    return 1
  | .crashed =>
    IO.eprintln Scrollback.RingError.capacity.message
    return 101
  | .misused =>
    IO.eprint Scrollback.Program.usage
    return 2
