import Mathlib.Data.List.Forall2
import Scrollback.Proofs.Ring.Holds

/-!
This module contains the plain list of rows that a ring stands for.
-/

namespace Scrollback

structure RowList where
  start : Nat := 0
  rows : List Row := []
  maxRows : Nat
  maxRows_pos : 0 < maxRows
  deriving DecidableEq

namespace RowList

def finish (list : RowList) : Nat :=
  list.start + list.rows.length

def WellFormed (list : RowList) : Prop :=
  ∀ row ∈ list.rows, row.WellFormed

end RowList

/--
A row is shown as it is or, once it was frozen, in its normal form.
-/
def Row.ShownAs (shown row : Row) : Prop :=
  shown = row ∨ shown = row.normalize

namespace Row.ShownAs

theorem refl (row : Row) : row.ShownAs row :=
  Or.inl rfl

theorem normalize {shown row : Row} (h : shown.ShownAs row) : shown.normalize.ShownAs row := by
  rcases h with rfl | rfl
  · exact Or.inr rfl
  · exact Or.inr row.normalize_normalize

theorem eq_of_wellFormed {shown row : Row} (h : shown.ShownAs row) (hrow : row.WellFormed) :
    shown = row := by
  rcases h with rfl | rfl
  · rfl
  · exact hrow.normalize_eq

theorem softWrapped_eq {shown row : Row} (h : shown.ShownAs row) :
    shown.softWrapped = row.softWrapped := by
  rcases h with rfl | rfl
  · rfl
  · rw [← row.toRow_styled, StyledLine.softWrapped_toRow]
    rfl

end Row.ShownAs

structure RingContents.Shows (contents : RingContents) (list : RowList) : Prop where
  start_eq : contents.start = list.start
  maxRows_eq : contents.maxRows = list.maxRows
  rows : List.Forall₂ Row.ShownAs contents.rows list.rows
  line_eq : ∀ (k : Nat) (frozen : FrozenRow) (row : Row), contents.frozen[k]? = some frozen →
    list.rows[k]? = some row → row.WellFormed → frozen.line = row.styled

def Ring.Shows {σ : Type} [ByteLog σ] [LawfulLog σ] (ring : Ring σ) (list : RowList) : Prop :=
  ∃ contents, ring.Holds contents ∧ contents.Shows list

namespace Ring.Shows

variable {σ : Type} [ByteLog σ] [LawfulLog σ] {ring : Ring σ} {list : RowList}

theorem start_eq (h : ring.Shows list) : ring.start = list.start := by
  obtain ⟨contents, h, hlist⟩ := h
  rw [h.start_eq, hlist.start_eq]

theorem finish_eq (h : ring.Shows list) : ring.finish = list.finish := by
  obtain ⟨contents, h, hlist⟩ := h
  rw [h.finish_eq, ← contents.length_rows, hlist.rows.length_eq, hlist.start_eq]
  rfl

theorem writable_le_finish (h : ring.Shows list) : ring.writable ≤ ring.finish := by
  obtain ⟨contents, h, -⟩ := h
  exact h.writable_le_finish

theorem maxRows_eq (h : ring.Shows list) : ring.maxRows = list.maxRows := by
  obtain ⟨contents, h, hlist⟩ := h
  rw [h.maxRows_eq, hlist.maxRows_eq]

theorem size_eq (h : ring.Shows list) : ring.size = list.rows.length := by
  rw [Ring.size, h.finish_eq, h.start_eq, RowList.finish, Nat.add_sub_cancel_left]

end Ring.Shows

end Scrollback
