/-!
This module contains the basic steps in which configuration text is read.
-/

namespace Scrollback

namespace Toml

abbrev Scanner := StateT (List Char) Option

namespace Scanner

def peek? : Scanner (Option Char) := do
  return (← get).head?

def takeIf (p : Char → Bool) : Scanner Char := do
  match ← get with
  | [] => failure
  | char :: rest =>
    guard (p char)
    set rest
    return char

def takeWhile (p : Char → Bool) : Scanner (List Char) := do
  let text ← get
  set (text.dropWhile p)
  return text.takeWhile p

def expect (token : String) : Scanner Unit := do
  let text ← get
  guard (token.toList.isPrefixOf text)
  set (text.drop token.length)

def accept (token : String) : Scanner Bool := do
  let text ← get
  if token.toList.isPrefixOf text then
    set (text.drop token.length)
    return true
  else
    return false

def takeExactly (p : Char → Bool) : Nat → Scanner (List Char)
  | 0 => return []
  | count + 1 => do
    let char ← takeIf p
    return char :: (← takeExactly p count)

def isBlank (char : Char) : Bool :=
  char = ' ' || char = '\t'

def skipBlanks : Scanner Unit :=
  discard (takeWhile isBlank)

def isPrintable (char : Char) : Bool :=
  char = '\t' || (' ' ≤ char && char ≠ '\x7f')

def lineBreak : Scanner Unit :=
  expect "\n" <|> expect "\r\n"

def skipComment : Scanner Unit := do
  if ← accept "#" then
    discard (takeWhile isPrintable)

def endOfLine : Scanner Unit := do
  skipBlanks
  skipComment
  unless (← get).isEmpty do
    lineBreak

def skipBreaks : (fuel : Nat) → Scanner Unit
  | 0 => skipBlanks
  | fuel + 1 => do
    skipBlanks
    match ← peek? with
    | some '\n' | some '\r' =>
      lineBreak
      skipBreaks fuel
    | _ => return ()

def skipLines : (fuel : Nat) → Scanner Unit
  | 0 => skipBlanks
  | fuel + 1 => do
    skipBlanks
    match ← peek? with
    | some '#' | some '\n' | some '\r' =>
      endOfLine
      skipLines fuel
    | _ => return ()

end Scanner

end Toml

end Scrollback
