import Scrollback.Proofs.Layout.Cursor
import Scrollback.Proofs.Row.Locate

/-!
This module contains the proof that a layout gets to a glyph where the cells of the glyph are after
the paragraph is split.
-/

namespace Scrollback

namespace Cell

theorem styledSize_styled (cell : Cell) : styledSize cell.styled = cell.textSize := by
  rw [textSize, Text.utf8ByteSize_eq, String.toList_ofList, styledSize, styled, List.map_cons,
    List.map_map, chars]
  simp [Function.comp_def]

end Cell

namespace Anchor

open Cell (span styled)

theorem locate_replicate {cell : Cell} (h : cell.fragment = true) (softWrapped : Bool)
    (target column offset count : Nat) (cells : List Cell) :
    locate softWrapped target column offset (List.replicate count cell ++ cells)
      =
    locate softWrapped target column offset cells := by
  induction count with
  | zero => rfl
  | succ count ih => rw [List.replicate_succ, List.cons_append, locate, if_pos h, ih]

theorem locate_span {lead : Cell} (h : lead.fragment = false) (softWrapped : Bool)
    (target column offset : Nat) (cells : List Cell) :
    locate softWrapped target column offset (lead.span ++ cells)
      =
    if target < column + lead.width then
      .text offset (target - column)
    else
      locate softWrapped target (column + lead.width) (offset + styledSize lead.styled) cells := by
  rw [span, List.cons_append, locate, if_neg (by simp [h]), locate_replicate rfl,
    Cell.styledSize_styled]

theorem exists_locate_eq (softWrapped : Bool) {target column : Nat} (offset : Nat)
    {leads : List Cell} (hleads : ∀ lead ∈ leads, lead.IsLead) (hcolumn : column ≤ target) :
    ∃ before after cells, leads = before ++ after
      ∧ locate softWrapped target column offset (leads.flatMap span)
        = .text (offset + styledSize (before.flatMap styled)) cells
      ∧ column + (before.flatMap span).length + cells
        = (if softWrapped then min target (column + (leads.flatMap span).length) else target)
      ∧ (∀ lead ∈ after.head?, cells < lead.width)
      ∧ (after = [] → softWrapped = true → cells = 0) := by
  -- The anchor of a column in a row is at the text of one of its glyphs, or at the end of the row.
  induction leads generalizing column offset with
  | nil =>
    refine ⟨[], [], if softWrapped then 0 else target - column, rfl, rfl, ?_, by simp, ?_⟩
    · simp only [List.flatMap_nil, List.length_nil, Nat.add_zero]
      split
      · omega
      · omega
    · exact fun _ hsoft => if_pos hsoft
  | cons lead leads ih =>
    rw [List.forall_mem_cons] at hleads
    have hsize := Cell.length_span hleads.1
    rw [List.flatMap_cons, locate_span hleads.1.1, List.length_append, hsize]
    split
    · next htarget =>
      refine ⟨[], lead :: leads, target - column, rfl, rfl, ?_, ?_, nofun⟩
      · simp only [List.flatMap_nil, List.length_nil, Nat.add_zero]
        split
        · omega
        · omega
      · intro other hother
        rw [List.head?_cons, Option.mem_some] at hother
        rw [← hother]
        omega
    · next htarget =>
      obtain ⟨before, after, cells, rfl, hlocate, hplace, hcells, hend⟩ :=
        ih (offset + styledSize lead.styled) hleads.2 (Nat.not_lt.mp htarget)
      refine ⟨lead :: before, after, cells, rfl, ?_, ?_, hcells, hend⟩
      · rw [hlocate, List.flatMap_cons, styledSize_append, Nat.add_assoc]
      · rw [List.flatMap_cons, List.length_append, hsize, ← Nat.add_assoc, hplace, Nat.add_assoc]

end Anchor

namespace Layout.Cursor

open Cell (span styled)

variable {cursor : Cursor} {columns : Nat}

theorem rows_seek {offset start : Nat} {chars : List (Char × Style)}
    (h : start + styledSize chars ≤ offset) :
    (cursor.seek columns offset start chars).rows
      =
    cursor.rows + (StyledLine.wrapChars columns cursor.column chars).2.length := by
  induction chars generalizing cursor start with
  | nil => rfl
  | cons char chars ih =>
    rw [styledSize_cons] at h
    rw [seek, if_neg (by omega), ih (by omega), StyledLine.wrapChars, openFor]
    dsimp only
    split
    · simp only [take, openRow, Nat.zero_add, List.length_cons]
      omega
    · rfl

theorem seek_marks {marks : List Char} {chars : List (Char × Style)} {offset start : Nat}
    (h : start + styledSize (marks.map (·, Style.combining)) ≤ offset) :
    cursor.seek columns offset start (marks.map (·, Style.combining) ++ chars)
      =
    cursor.seek columns offset (start + styledSize (marks.map (·, Style.combining))) chars := by
  induction marks generalizing start with
  | nil => rfl
  | cons mark marks ih =>
    have hwidth : Style.combining.columns.toNat = 0 := rfl
    have hopen : cursor.openFor columns 0 = cursor := by
      rw [openFor, if_neg (by simp)]
    rw [List.map_cons, styledSize_cons, ← Nat.add_assoc] at h ⊢
    rw [List.cons_append, seek, hwidth, hopen, if_neg (by omega)]
    exact ih h

theorem seek_styled {lead : Cell} (hlead : lead.IsLead) {chars : List (Char × Style)}
    {offset start : Nat} (h : start + styledSize lead.styled ≤ offset) :
    cursor.seek columns offset start (lead.styled ++ chars)
      =
    ((cursor.openFor columns lead.width).take lead.width).seek columns offset
      (start + styledSize lead.styled) chars := by
  rw [styled, styledSize_cons, ← Nat.add_assoc] at h ⊢
  rw [List.cons_append, seek, if_neg (by omega), seek_marks h, hlead.width_eq]

theorem seek_styled_self {lead : Cell} (hlead : lead.IsLead) (chars : List (Char × Style))
    (start : Nat) :
    cursor.seek columns start start (lead.styled ++ chars) = cursor.openFor columns lead.width := by
  rw [styled, List.cons_append, seek, if_pos (Nat.lt_add_of_pos_right (Char.utf8Size_pos _)),
    hlead.width_eq]

theorem seek_eq_locate_head {after : List Cell} (hleads : ∀ lead ∈ after, lead.IsLead) {cells : Nat}
    (hcells : ∀ lead ∈ after.head?, cells < lead.width) (cursor : Cursor) (start : Nat)
    {reached : Cursor} {piece : List Cell} {later : List (List Cell)}
    (hreached : cursor.seek columns start start (after.flatMap styled) = reached)
    (hpieces : Row.wrapCells columns cursor.column (after.flatMap span) = (piece, later)) :
    locate (cursor.column + cells) ((cursor.column + piece.length) :: later.map List.length)
      =
    (reached.rows - cursor.rows, reached.column + cells)
      ∧ cursor.rows ≤ reached.rows := by
  cases after with
  | nil =>
    rw [List.flatMap_nil, seek] at hreached
    rw [List.flatMap_nil, Row.wrapCells, Prod.mk.injEq] at hpieces
    rw [← hreached, ← hpieces.1, ← hpieces.2, List.map_nil, locate_singleton, Nat.sub_self]
    exact ⟨rfl, Nat.le_refl _⟩
  | cons lead after =>
    rw [List.forall_mem_cons] at hleads
    have hlt := hcells lead rfl
    have hsize := Cell.length_span hleads.1
    rw [List.flatMap_cons, seek_styled_self hleads.1, openFor] at hreached
    rw [List.flatMap_cons, Row.wrapCells_span hleads.1.1] at hpieces
    by_cases hopen : 0 < cursor.column ∧ columns < cursor.column + lead.width
    · rw [if_pos ⟨by omega, hopen⟩] at hreached
      rw [if_pos hopen, Prod.mk.injEq] at hpieces
      rw [← hreached, ← hpieces.1, ← hpieces.2, List.map_cons, List.length_nil,
        locate_of_le (by omega), locate_of_lt]
      · simp [openRow]
      · rw [List.length_append]
        omega
    · rw [if_neg fun h => hopen h.2] at hreached
      rw [if_neg hopen, Prod.mk.injEq] at hpieces
      rw [← hreached, ← hpieces.1, ← hpieces.2, locate_of_lt]
      · simp
      · rw [List.length_append]
        omega

theorem seek_eq_locate {before after : List Cell} (hleads : ∀ lead ∈ before ++ after, lead.IsLead)
    {cells : Nat} (hcells : ∀ lead ∈ after.head?, cells < lead.width) (cursor : Cursor)
    (start : Nat) {reached : Cursor} {piece : List Cell} {later : List (List Cell)}
    (hreached : cursor.seek columns (start + styledSize (before.flatMap styled)) start
      ((before ++ after).flatMap styled) = reached)
    (hpieces : Row.wrapCells columns cursor.column ((before ++ after).flatMap span)
      = (piece, later)) :
    locate (cursor.column + (before.flatMap span).length + cells)
        ((cursor.column + piece.length) :: later.map List.length)
      =
    (reached.rows - cursor.rows, reached.column + cells)
      ∧ cursor.rows ≤ reached.rows := by
  -- The induction is on the glyphs before the one that is looked for. The cells of the first piece
  -- follow the columns that the cursor has taken already.
  induction before generalizing cursor start piece later with
  | nil =>
    rw [List.flatMap_nil, styledSize_nil, Nat.add_zero] at hreached
    rw [List.flatMap_nil, List.length_nil, Nat.add_zero]
    exact seek_eq_locate_head hleads hcells cursor start hreached hpieces
  | cons lead before ih =>
    rw [List.cons_append, List.forall_mem_cons] at hleads
    have hpos := hleads.1.width_pos
    have hsize := Cell.length_span hleads.1
    rw [List.cons_append, List.flatMap_cons, List.flatMap_cons, styledSize_append, ← Nat.add_assoc,
      seek_styled hleads.1 (Nat.le_add_right _ _), openFor] at hreached
    rw [List.cons_append, List.flatMap_cons, Row.wrapCells_span hleads.1.1] at hpieces
    rw [List.flatMap_cons, List.length_append, hsize]
    by_cases hopen : 0 < cursor.column ∧ columns < cursor.column + lead.width
    · rw [if_pos ⟨hpos, hopen⟩] at hreached
      rw [if_pos hopen, Prod.mk.injEq] at hpieces
      have hcolumn : (cursor.openRow.take lead.width).column = lead.width := Nat.zero_add _
      have hrows : (cursor.openRow.take lead.width).rows = cursor.rows + 1 := rfl
      obtain ⟨hlocate, hle⟩ := ih hleads.2 _ _ hreached rfl
      rw [hcolumn, hrows] at hlocate
      rw [← hpieces.1, ← hpieces.2, List.map_cons, List.length_nil, locate_of_le (by omega),
        List.length_append, hsize]
      rw [show cursor.column + (lead.width + (before.flatMap span).length) + cells - (cursor.column + 0)
        = lead.width + (before.flatMap span).length + cells by omega, hlocate]
      refine ⟨?_, by omega⟩
      rw [Prod.mk.injEq]
      exact ⟨by omega, rfl⟩
    · rw [if_neg fun h => hopen h.2] at hreached
      rw [if_neg hopen, Prod.mk.injEq] at hpieces
      obtain ⟨hlocate, hle⟩ := ih hleads.2 _ _ hreached rfl
      have hcolumn : (cursor.take lead.width).column = cursor.column + lead.width := rfl
      rw [hcolumn] at hlocate
      rw [← hpieces.1, ← hpieces.2, List.length_append, hsize, ← Nat.add_assoc, ← Nat.add_assoc,
        hlocate]
      exact ⟨rfl, hle⟩

end Layout.Cursor

end Scrollback
