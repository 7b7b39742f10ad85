import Scrollback.Proofs.Layout.Markers
import Scrollback.Proofs.Ring.Reachable
import Scrollback.Proofs.Row.Relocate

/-!
This module contains the proof that rewrapping a ring moves each marker with the cell that it is on,
whatever the other markers are.
-/

namespace Scrollback

theorem FrozenRow.exists_anchor_eq {start tail : Nat} {frozen : List FrozenRow}
    (hplaced : PlacedFrom tail frozen)
    (h : ∀ row ∈ frozen, row.line.toRow.WellFormed ∧ row.line.toRow.styled = row.line)
    (hfrozen : frozen ≠ []) (columns : Nat) {marker : Position}
    (hmarker : marker.line < start + frozen.length) :
    ∃ offset cells, anchor start frozen marker = .text offset cells ∧ tail ≤ offset
      ∧ (Anchor.text offset cells).shownAt (fun offset =>
          (Layout.Cursor.seekLines { rows := 0, column := 0 } (max columns 1) offset tail
            (paragraphs frozen)).place)
        = some ((Row.relocate columns (marker.line - start)
            (if marker.line < start then 0 else marker.column)
            (Row.paragraphs (frozen.map (·.line.toRow)))).1,
          (Row.relocate columns (marker.line - start)
            (if marker.line < start then 0 else marker.column)
            (Row.paragraphs (frozen.map (·.line.toRow)))).2 % 2 ^ 64) := by
  have hlength := List.length_pos_iff.mpr hfrozen
  obtain ⟨row, hrow⟩ : ∃ row, frozen[marker.line - start]? = some row :=
    ⟨_, List.getElem?_eq_getElem (by omega)⟩
  obtain ⟨offset, cells, hlocate, hle, hseek⟩ := exists_seekLines_eq hplaced h hrow columns
    (if marker.line < start then 0 else marker.column)
  obtain ⟨hrelocate, -⟩ := hseek { rows := 0, column := 0 } _ rfl
  refine ⟨offset, cells, ?_, hle, ?_⟩
  · rw [anchor, if_neg (by omega), hrow]
    exact hlocate
  · rw [hrelocate]
    rfl

theorem FrozenRow.wellFormed_of_map_line {frozen : List FrozenRow} {rows : List Row}
    (hrows : ∀ row ∈ rows, row.WellFormed) (hlines : frozen.map (·.line) = rows.map Row.styled) :
    ∀ row ∈ frozen, row.line.toRow.WellFormed ∧ row.line.toRow.styled = row.line := by
  intro row hrow
  have hline : row.line ∈ rows.map Row.styled := by
    rw [← hlines]
    exact List.mem_map_of_mem hrow
  obtain ⟨row', hrow', heq⟩ := List.mem_map.mp hline
  rw [← heq, (hrows row' hrow').toRow_styled]
  exact ⟨hrows row' hrow', rfl⟩

theorem ArchiveContents.Holds.size_layout {contents : ArchiveContents} {start : Nat}
    {frozen : List FrozenRow} {changes : List StyleChange} (h : contents.Holds start frozen changes)
    (hrange : contents.InRange) {rows : List Row} (hrows : ∀ row ∈ rows, row.WellFormed)
    (hlines : frozen.map (·.line) = rows.map Row.styled) (columns : Nat) (anchors : List Anchor) :
    (contents.layout changes frozen columns anchors).entries.size
      =
    (Row.rewrap rows columns).length := by
  obtain ⟨new, hentries, hnew, -⟩ := h.exists_relayout hrange columns anchors
  have hrewrap := congrArg List.length (Row.map_styled_rewrap hrows columns)
  rw [List.length_map, ← hlines, ← hnew, List.length_map] at hrewrap
  rw [hrewrap, ← Array.length_toList, hentries, List.length_map]

theorem ArchiveContents.Holds.positions_eq {contents : ArchiveContents} {start : Nat}
    {frozen : List FrozenRow} {changes : List StyleChange} (h : contents.Holds start frozen changes)
    (hrange : contents.InRange) {rows : List Row} (hrows : ∀ row ∈ rows, row.WellFormed)
    (hlines : frozen.map (·.line) = rows.map Row.styled) (hne : rows ≠ [])
    (maxRows columns : Nat) (markers : List Position) :
    contents.positions changes start maxRows frozen columns markers
      =
    markers.map (Position.rewrap64 rows start maxRows columns) := by
  have hshown := FrozenRow.map_toRow_eq hrows hlines
  have hfrozen := FrozenRow.wellFormed_of_map_line hrows hlines
  have hlength : frozen.length = rows.length := by
    rw [← hshown, List.length_map]
  have hne' : frozen ≠ [] := by
    rwa [← List.length_pos_iff, hlength, List.length_pos_iff]
  unfold positions
  dsimp only
  rw [h.size_layout hrange hrows hlines, layout, Layout.map_resolve_addLines, List.map_map]
  · apply List.map_congr_left
    intro marker _
    rw [Function.comp_apply, Position.rewrap64, Position.rewrap]
    dsimp only
    -- A marker below the last row moves with it, any other one is at the text of a row.
    by_cases hbelow : start + rows.length ≤ marker.line
    · rw [if_pos hbelow, if_pos hbelow, FrozenRow.anchor, hlength, if_pos hbelow]
      rfl
    · rw [if_neg hbelow, if_neg hbelow]
      have hmarker : marker.line < start + frozen.length := by
        omega
      obtain ⟨offset, cells, hanchor, -, hplace⟩ :=
        FrozenRow.exists_anchor_eq h.placed hfrozen hne' columns hmarker
      rw [hanchor, hplace, hshown, Nat.max_comm, Anchor.resolve]
      generalize Row.relocate columns (marker.line - start) _ (Row.paragraphs rows) = new
      split
      · rfl
      · rfl
  · intro offset cells hmem
    obtain ⟨marker, -, hmarker⟩ := List.mem_map.mp hmem
    by_cases hbelow : start + frozen.length ≤ marker.line
    · rw [FrozenRow.anchor, if_pos hbelow] at hmarker
      contradiction
    · obtain ⟨offset', cells', hanchor, hle, -⟩ :=
        FrozenRow.exists_anchor_eq h.placed hfrozen hne' columns (Nat.not_le.mp hbelow)
      rw [hanchor, Anchor.text.injEq] at hmarker
      rw [← hmarker.1]
      exact hle

end Scrollback
