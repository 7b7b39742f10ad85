/-!
This module contains the division of text into lines and into the parts between separators.
-/

namespace Scrollback

namespace Text

def consFirst (char : Char) : List (List Char) → List (List Char)
  | [] => [[char]]
  | part :: parts => (char :: part) :: parts

def splitOn (separator : Char) (text : List Char) : List (List Char) :=
  text.foldr (fun char parts => if char = separator then [] :: parts else consFirst char parts) [[]]

structure LineSplit where
  lines : List (List Char) := []
  atBreak : Bool := false

/--
Take in the character before the current place. A carriage return is part of the line break that
follows it.
-/
def LineSplit.add (char : Char) (split : LineSplit) : LineSplit :=
  if char = '\n' then { lines := [] :: split.lines, atBreak := true }
  else if char = '\r' ∧ split.atBreak then { lines := split.lines }
  else { lines := consFirst char split.lines }

def lines (text : List Char) : List (List Char) :=
  (text.foldr LineSplit.add {}).lines

end Text

end Scrollback
