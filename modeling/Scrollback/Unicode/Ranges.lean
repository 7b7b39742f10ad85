/-!
This module contains sets of characters that are given by ranges of code points.
-/

namespace Scrollback

namespace Unicode

/--
A set of characters as ranges of code points, both ends included, in ascending order.
-/
structure CodeRanges where
  ofArray ::
  ranges : Array (Nat × Nat)

namespace CodeRanges

def contains (set : CodeRanges) (char : Char) : Bool :=
  go 0 set.ranges.size
where
  go (low high : Nat) : Bool :=
    if low < high then
      let middle := (low + high) / 2
      match set.ranges[middle]? with
      | none => false
      | some (first, last) =>
        if char.toNat < first then
          go low middle
        else if last < char.toNat then
          go (middle + 1) high
        else
          true
    else
      false
  termination_by high - low

end CodeRanges

end Unicode

end Scrollback
