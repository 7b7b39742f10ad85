import Scrollback.Settings

/-!
This module contains the command line of the program.
-/

namespace Scrollback

structure Options where
  input : Option String := none
  config : Option String := none
  columns : Option Nat := none
  maxRows : Option Nat := none
  windowRows : Option Nat := none
  storage : Option Storage := none
  rewrap : Option Nat := none
  rows : Bool := false
  deriving DecidableEq, Repr

namespace Options

def apply (options : Options) (settings : Settings) : Settings where
  maxRows := options.maxRows.getD settings.maxRows
  windowRows := options.windowRows.getD settings.windowRows
  storage := options.storage.getD settings.storage
  columns := options.columns.getD settings.columns

def size? (text : String) : Option Nat :=
  let digits := match text.toList with
    | '+' :: digits => digits
    | digits => digits
  let number := digits.foldl (fun n digit => 10 * n + (digit.toNat - '0'.toNat)) 0
  if digits ≠ [] && digits.all Char.isDigit && number < UInt64.size then some number else none

def path? (text : String) : Option String :=
  if text.isEmpty then none else some text

def setOnce {α : Type} (old : Option α) (new : Option α) : Option (Option α) :=
  if old.isSome then none else new.map some

def takesValue (name : String) : Bool :=
  ["config", "columns", "max-rows", "window-rows", "storage", "rewrap"].contains name

def set? (options : Options) (name value : String) : Option Options :=
  match name with
  | "config" => do return { options with config := ← setOnce options.config (path? value) }
  | "columns" => do return { options with columns := ← setOnce options.columns (size? value) }
  | "max-rows" => do return { options with maxRows := ← setOnce options.maxRows (size? value) }
  | "window-rows" => do
    return { options with windowRows := ← setOnce options.windowRows (size? value) }
  | "storage" => do
    return { options with storage := ← setOnce options.storage (Storage.ofName? value) }
  | "rewrap" => do return { options with rewrap := ← setOnce options.rewrap (size? value) }
  | _ => none

def setInput? (options : Options) (path : String) : Option Options := do
  return { options with input := ← setOnce options.input (path? path) }

end Options

inductive Command where
  | version
  | help
  | print (options : Options)
  deriving DecidableEq, Repr

namespace Command

def splitLong (text : List Char) : String × Option String :=
  let name := String.ofList (text.takeWhile (· ≠ '='))
  match text.dropWhile (· ≠ '=') with
  | [] => (name, none)
  | _ :: value => (name, some (String.ofList value))

def isPlain (argument : String) : Bool :=
  match argument.toList with
  | '-' :: _ :: _ => false
  | _ => true

def ofFiles? (options : Options) : List String → Option Command
  | [] => some (.print options)
  | file :: files => do ofFiles? (← options.setInput? file) files

/--
The command with the given arguments after those for which the options are known, if they make sense.
The first argument that asks for help or for the version decides, unless one before it is wrong.
-/
def ofArguments? (options : Options) : List String → Option Command
  | [] => some (.print options)
  | argument :: arguments =>
    match argument.toList with
    | ['-', '-'] => ofFiles? options arguments
    | '-' :: '-' :: long =>
      match splitLong long with
      | ("rows", none) =>
        if options.rows then none else ofArguments? { options with rows := true } arguments
      | ("version", none) => some .version
      | ("help", none) => some .help
      | (name, some value) => do ofArguments? (← options.set? name value) arguments
      | (name, none) =>
        match arguments with
        | value :: arguments =>
          if Options.takesValue name && isPlain value then do
            ofArguments? (← options.set? name value) arguments
          else
            none
        | [] => none
    | '-' :: 'V' :: _ => some .version
    | '-' :: 'h' :: _ => some .help
    | '-' :: _ :: _ => none
    | _ => do ofArguments? (← options.setInput? argument) arguments

def parse? (arguments : List String) : Option Command :=
  ofArguments? {} arguments

end Command

end Scrollback
