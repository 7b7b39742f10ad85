import Scrollback.Toml.Scalar

/-!
This module contains the reading of configuration files.
-/

namespace Scrollback

namespace Toml

namespace Scanner

def maxDepth : Nat := 80

def isBareKeyChar (char : Char) : Bool :=
  char.isAlphanum || char = '_' || char = '-'

def simpleKey : Scanner String := do
  match ← peek? with
  | some '"' | some '\'' => quoted
  | _ =>
    let name ← takeWhile isBareKeyChar
    guard (name ≠ [])
    return String.ofList name

def moreKeys : (fuel : Nat) → Scanner (List String)
  | 0 => failure
  | fuel + 1 => do
    skipBlanks
    if ← accept "." then
      skipBlanks
      let name ← simpleKey
      return name :: (← moreKeys fuel)
    else
      return []

def key : Scanner (List String × String) := do
  skipBlanks
  let first ← simpleKey
  let names := first :: (← moreKeys maxDepth)
  guard (names.length < maxDepth)
  match names.getLast? with
  | some last => return (names.dropLast, last)
  | none => failure

mutual

/--
A value. `levels` is the number of levels that may still begin.
-/
def value (levels : Nat) : (fuel : Nat) → Scanner Value
  | 0 => failure
  | fuel + 1 => do
    match ← peek?, levels with
    | some '[', levels + 1 => do
      expect "["
      return .array (← items levels fuel)
    | some '\x7b', levels + 1 => do
      expect "\x7b"
      skipBlanks
      if ← accept "\x7d" then
        return .table .inline []
      else
        return .table .inline (← pairs levels [] fuel)
    | some '[', 0 | some '\x7b', 0 => failure
    | _, _ => scalar

def items (levels : Nat) : (fuel : Nat) → Scanner (List Value)
  | 0 => failure
  | fuel + 1 => do
    skipLines (← get).length
    if ← accept "]" then
      return []
    let item ← value levels fuel
    skipLines (← get).length
    if ← accept "," then
      return item :: (← items levels fuel)
    else
      expect "]"
      return [item]

def pairs (levels : Nat) (entries : Entries) : (fuel : Nat) → Scanner Entries
  | 0 => failure
  | fuel + 1 => do
    let (path, name) ← key
    expect "="
    skipBlanks
    let item ← value levels fuel
    skipBlanks
    let entries ← entries.defineDotted name item path
    if ← accept "," then
      pairs levels entries fuel
    else
      expect "\x7d"
      return entries

end

def keyValue (table : List String) (root : Entries) : Scanner Entries := do
  let (path, name) ← key
  expect "="
  skipBlanks
  let fuel := 2 * (← get).length + 2
  let item ← value (maxDepth - 1) fuel
  endOfLine
  root.alterAt (·.defineDotted name item path) table

def tableHeader (root : Entries) : Scanner (List String × Entries) := do
  let listed ← accept "[["
  unless listed do
    expect "["
  let (path, name) ← key
  expect (if listed then "]]" else "]")
  endOfLine
  let openTable := if listed then Entries.openNextTable name else Entries.openTable name
  return (path ++ [name], ← root.alterAt openTable path)

/--
The rest of a file, after the given entries. `table` leads to the table that the last header opened.
-/
def expressions (table : List String) (root : Entries) : (fuel : Nat) → Scanner Entries
  | 0 => failure
  | fuel + 1 => do
    skipLines (← get).length
    match ← peek? with
    | none => return root
    | some '[' => do
      let (table, root) ← tableHeader root
      expressions table root fuel
    | some _ => do
      let root ← keyValue table root
      expressions table root fuel

end Scanner

def parse? (text : String) : Option Entries := do
  let chars := text.toList
  let chars := if chars.head? = some '\ufeff' then chars.tail else chars
  let (entries, _) ← (Scanner.expressions [] [] (chars.length + 1)).run chars
  return entries

end Toml

end Scrollback
