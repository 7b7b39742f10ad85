/-!
This module contains what has to be known about characters in order to lay text out in cells. The
rest of the library works for any such rules.
-/

namespace Scrollback

structure TextRules where
  width : Char → Option Nat
  clusters : List Char → List (List Char)
  flatten_clusters : ∀ text, (clusters text).flatten = text
  ne_nil_of_mem_clusters : ∀ text, ∀ cluster ∈ clusters text, cluster ≠ []

namespace TextRules

/--
The columns that a character gets in a row: one for a control character, and never more than fit
into a style.
-/
def columns (rules : TextRules) (char : Char) : UInt8 :=
  UInt8.ofNat (min ((rules.width char).getD 1) 255)

end TextRules

end Scrollback
