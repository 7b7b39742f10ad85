import Scrollback.Toml.Document

/-!
This module contains the settings of the program and how they are read from a configuration file.
-/

namespace Scrollback

inductive Storage where
  | memory | file
  deriving DecidableEq, Repr

namespace Storage

def ofName? : String → Option Storage
  | "memory" => some .memory
  | "file" => some .file
  | _ => none

end Storage

structure Settings where
  maxRows : Nat := 10000
  windowRows : Nat := 32
  storage : Storage := .memory
  columns : Nat := 80
  deriving DecidableEq, Repr

namespace Settings

open Toml

def size? : Value → Option Nat
  | .integer number => if 0 ≤ number then some number.toNat else none
  | _ => none

def isEmptyValue : Value → Bool
  | .array items => items.isEmpty
  | .table _ entries => entries.isEmpty
  | .tables items => items.isEmpty
  | _ => false

/--
The storage that a value names: as a string, or as the only key of a table, where it has an empty
value.
-/
def storage? : Value → Option Storage
  | .string name => Storage.ofName? name
  | .table _ [(name, value)] => if isEmptyValue value then Storage.ofName? name else none
  | _ => none

/--
The values of the given fields in a section of the file. A section is a table, which may have other
keys, or an array with the values in order. A time in place of a section holds none of the fields.
-/
def fields? (names : List String) : Value → Option (List (Option Value))
  | .table _ entries => some (names.map fun name => Entries.find? entries name)
  | .array items => some (names.mapIdx fun i _ => items[i]?)
  | .tables items => some (names.mapIdx fun i _ => items[i]?.map (.table .header))
  | .time => some (names.map fun _ => none)
  | _ => none

def readOr {α : Type} (default : α) (read : Value → Option α) : Option Value → Option α
  | none => some default
  | some value => read value

def withRing (settings : Settings) (value : Value) : Option Settings := do
  let values ← fields? ["max_rows", "window_rows", "storage"] value
  match values with
  | [maxRows, windowRows, storage] =>
    return { settings with
      maxRows := ← readOr settings.maxRows size? maxRows
      windowRows := ← readOr settings.windowRows size? windowRows
      storage := ← readOr settings.storage storage? storage }
  | _ => none

def withWrap (settings : Settings) (value : Value) : Option Settings := do
  match ← fields? ["columns"] value with
  | [columns] => return { settings with columns := ← readOr settings.columns size? columns }
  | _ => none

def ofEntries? (entries : Entries) : Option Settings := do
  let settings : Settings := {}
  let settings ← readOr settings settings.withRing (entries.find? "ring")
  readOr settings settings.withWrap (entries.find? "wrap")

def parse? (text : String) : Option Settings :=
  (Toml.parse? text).bind ofEntries?

end Settings

end Scrollback
