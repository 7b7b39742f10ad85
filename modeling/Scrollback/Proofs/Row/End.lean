import Mathlib.Algebra.Order.Ring.Nat
import Scrollback.Proofs.Row.Line

/-!
This module contains where the position after the last row is when the rows are brought to another number
of columns.
-/

namespace Scrollback

def Position.endOf (rows : List Row) : Position where
  line := rows.length - 1
  column := rows.getLast?.elim 0 Row.size

theorem Position.endOf_concat (rows : List Row) (last : Row) :
    endOf (rows ++ [last]) = { line := rows.length, column := last.size } := by
  rw [endOf, List.getLast?_concat, List.length_append]
  rfl

theorem Position.endOf_append (before : List Row) {rows : List Row} (h : rows ≠ []) :
    endOf (before ++ rows)
      =
    { line := before.length + (endOf rows).line, column := (endOf rows).column } := by
  rcases List.eq_nil_or_concat rows with rfl | ⟨rows, last, rfl⟩
  · contradiction
  · rw [List.concat_eq_append, ← List.append_assoc, endOf_concat, endOf_concat, List.length_append]

namespace Row

theorem size_join (rows : List Row) : (join rows).size = (rows.map size).sum := by
  rw [size, join, List.length_flatMap]
  rfl

theorem wrap_ne_nil (row : Row) (columns : Nat) : row.wrap columns ≠ [] := by
  obtain ⟨init, last, heq, -⟩ := row.exists_wrap_eq columns
  rw [heq]
  exact List.concat_ne_nil last init

theorem rewrap_ne_nil {rows : List Row} (h : rows ≠ []) (columns : Nat) :
    rewrap rows columns ≠ [] := by
  obtain ⟨init, last, rest, rfl, hinit, hlast⟩ := exists_chain (fun row : Row => row.softWrapped) h
  rw [rewrap_append hinit hlast]
  exact List.append_ne_nil_of_left_ne_nil (wrap_ne_nil _ columns) _

open Position (endOf endOf_concat endOf_append)

theorem locate_endOf_paragraph (init : List Row) {last : Row} (hlast : last.softWrapped = false)
    (columns : Nat) :
    locate (placeOf (init ++ [last]) init.length last.size)
        (((join (init ++ [last])).wrap columns).map size)
      =
    ((endOf ((join (init ++ [last])).wrap columns)).line,
      (endOf ((join (init ++ [last])).wrap columns)).column) := by
  have hplaceOf : placeOf (init ++ [last]) init.length last.size = (join (init ++ [last])).size := by
    rw [placeOf, List.take_left, List.getElem?_concat_length, Option.elim_some, hlast,
      size_join_append]
    simp [join, size]
  obtain ⟨before, piece, heq, -⟩ := (join (init ++ [last])).exists_wrap_eq columns
  have hsize := size_join_wrap (join (init ++ [last])) columns
  rw [heq, size_join, List.map_append, List.sum_append] at hsize
  rw [hplaceOf, ← hsize, heq, endOf_concat, List.map_append, List.map_singleton, List.sum_singleton,
    locate_append _ _ (List.cons_ne_nil _ _), locate_singleton, List.length_map]
  rfl

theorem relocate_endOf {rows : List Row} (h : rows ≠ [])
    (hlast : ∀ last, rows.getLast? = some last → last.softWrapped = false) (columns : Nat) :
    relocate columns (endOf rows).line (endOf rows).column (paragraphs rows)
      =
    ((endOf (rewrap rows columns)).line, (endOf (rewrap rows columns)).column) := by
  induction rows using chains_rec (fun row : Row => row.softWrapped) with
  | nil => contradiction
  | append init last rest hinit hstop ih =>
    rw [rewrap_append hinit hstop, relocate_append hinit hstop]
    by_cases hrest : rest = []
    · subst hrest
      have hhard := hlast last (by rw [List.append_nil, List.getLast?_concat])
      have hnil : rewrap [] columns = [] := rfl
      rw [List.append_nil, endOf_concat, hnil, List.append_nil]
      dsimp only
      rw [if_pos (by simp), locate_endOf_paragraph init hhard]
    · rw [endOf_append _ hrest, endOf_append _ (rewrap_ne_nil hrest columns)]
      dsimp only
      rw [if_neg (by omega), Nat.add_sub_cancel_left, ih hrest]
      intro other hother
      apply hlast
      rw [List.getLast?_append, hother, Option.some_or]

end Row

theorem Position.rewrap_endOf {rows : List Row} (h : rows ≠ [])
    (hlast : ∀ last, rows.getLast? = some last → last.softWrapped = false) {maxRows : Nat}
    (hmaxRows : 0 < maxRows) (columns : Nat) :
    Position.rewrap rows 0 maxRows columns (endOf rows) = endOf (Row.rewrap rows columns) := by
  have hlength := List.length_pos_iff.mpr h
  have hline : (endOf rows).line < rows.length := Nat.sub_one_lt_of_lt hlength
  have hnew := List.length_pos_iff.mpr (Row.rewrap_ne_nil h columns)
  have hend : (endOf (Row.rewrap rows columns)).line = (Row.rewrap rows columns).length - 1 := rfl
  rw [Position.rewrap]
  dsimp only
  rw [if_neg (by omega), if_neg (Nat.not_lt_zero _), Nat.sub_zero, Row.relocate_endOf h hlast]
  dsimp only
  rw [if_pos (by omega), Nat.zero_add]

theorem Position.rewrap64_endOf {rows : List Row} (h : rows ≠ [])
    (hlast : ∀ last, rows.getLast? = some last → last.softWrapped = false) {maxRows columns : Nat}
    (hmaxRows : 0 < maxRows) (hcolumn : (endOf (Row.rewrap rows columns)).column < 2 ^ 64) :
    Position.rewrap64 rows 0 maxRows columns (endOf rows) = endOf (Row.rewrap rows columns) := by
  have hrewrap := rewrap_endOf h hlast hmaxRows columns
  have hline : (endOf rows).line < 0 + rows.length := by
    rw [Nat.zero_add]
    exact Nat.sub_one_lt_of_lt (List.length_pos_iff.mpr h)
  rw [← hrewrap] at hcolumn ⊢
  exact rewrap64_of_lt hline hcolumn

end Scrollback
