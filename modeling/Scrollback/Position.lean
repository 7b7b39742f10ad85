/-!
This module contains positions in a ring, such as a cursor or the ends of a selection.
-/

namespace Scrollback

/--
The sum of two numbers of 64 bits. One that is too large starts again at zero.
-/
def add64 (m n : Nat) : Nat :=
  (m + n) % UInt64.size

/--
A row index and a column. Neither has to exist: a position may lie below the newest row or past the
end of its row.
-/
structure Position where
  line : Nat
  column : Nat
  deriving DecidableEq, Repr

namespace Position

instance : Ord Position where
  compare p q := (compare p.line q.line).then (compare p.column q.column)

instance : LE Position where
  le p q := (compare p q).isLE

instance (p q : Position) : Decidable (p ≤ q) :=
  inferInstanceAs (Decidable (_ = true))

instance : ToString Position where
  toString p := toString p.line ++ ":" ++ toString p.column

end Position

end Scrollback
