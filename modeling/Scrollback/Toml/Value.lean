/-!
This module contains the values of configuration files in TOML, and the ways in which keys and table
headers add to a table.
-/

namespace Scrollback

namespace Toml

/--
How a table came to be, which decides on what may still be added to it.
-/
inductive TableOrigin where
  | inline
  | dotted
  | implied
  | header
  deriving DecidableEq, Repr

/--
A value. Numbers with a fraction and times are only known to be there.
-/
inductive Value where
  | string (text : String)
  | integer (number : Int)
  | float
  | boolean (value : Bool)
  | time
  | array (items : List Value)
  | table (origin : TableOrigin) (entries : List (String × Value))
  | tables (items : List (List (String × Value)))

abbrev Entries := List (String × Value)

namespace Entries

def find? (entries : Entries) (key : String) : Option Value :=
  entries.lookup key

def alter (key : String) (f : Option Value → Option Value) : Entries → Option Entries
  | [] => (f none).map fun value => [(key, value)]
  | (name, value) :: entries =>
    if name = key then
      (f (some value)).map fun value => (name, value) :: entries
    else
      (alter key f entries).map ((name, value) :: ·)

def alterLast (f : Entries → Option Entries) : List Entries → Option (List Entries)
  | [] => none
  | [last] => (f last).map ([·])
  | first :: items => (alterLast f items).map (first :: ·)

def define (key : String) (value : Value) : Entries → Option Entries :=
  alter key fun
    | none => some value
    | some _ => none

/--
Define a key in the table that dotted keys lead to. These create tables, but they must not lead into
tables that were defined in another way, other than to tables within those.
-/
def defineDotted (key : String) (value : Value) : List String → Entries → Option Entries
  | [] => define key value
  | name :: path =>
    alter name fun
      | none => (defineDotted key value path []).map (.table .dotted)
      | some (.table .dotted entries) => (defineDotted key value path entries).map (.table .dotted)
      | some (.table .implied entries) =>
        if path = [] then none else (defineDotted key value path entries).map (.table .implied)
      | some (.tables items) =>
        if path = [] then none
        else (alterLast (defineDotted key value path) items).map .tables
      | some _ => none

def alterAt (f : Entries → Option Entries) : List String → Entries → Option Entries
  | [] => f
  | name :: path =>
    alter name fun
      | none => (alterAt f path []).map (.table .implied)
      | some (.table .inline _) => none
      | some (.table origin entries) => (alterAt f path entries).map (.table origin)
      | some (.tables items) => (alterLast (alterAt f path) items).map .tables
      | some _ => none

/--
Open the table of a header. It must not have been defined before, except by headers of tables in it.
-/
def openTable (key : String) : Entries → Option Entries :=
  alter key fun
    | none => some (.table .header [])
    | some (.table .implied entries) => some (.table .header entries)
    | some _ => none

def openNextTable (key : String) : Entries → Option Entries :=
  alter key fun
    | none => some (.tables [[]])
    | some (.tables items) => some (.tables (items ++ [[]]))
    | some _ => none

end Entries

end Toml

end Scrollback
