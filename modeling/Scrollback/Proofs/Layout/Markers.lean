import Scrollback.Proofs.Archive.Relayout
import Scrollback.Proofs.Layout.Locate

/-!
This module contains the proof that a layout of paragraphs shows the anchors of the columns of rows
where these columns are after the paragraphs are split.
-/

namespace Scrollback

theorem StyledLine.length_ofPieces (softWrapped : Bool) (piece : List (Char × Style))
    (later : List (List (Char × Style))) :
    (ofPieces softWrapped piece later).length = later.length + 1 := by
  induction later generalizing piece with
  | nil => rfl
  | cons next later ih => rw [ofPieces, List.length_cons, ih, List.length_cons]

namespace Row

open Cell (span)

theorem rows_seek_eq {row : Row} (h : row.WellFormed) (columns : Nat) (cursor : Layout.Cursor)
    {start offset : Nat} (hoffset : start + styledSize row.styled.chars ≤ offset) :
    (cursor.openRow.seek (max columns 1) offset start row.styled.chars).rows
      =
    cursor.rows + (row.wrap columns).length := by
  have hcolumn : cursor.openRow.column = 0 := rfl
  have hrows : cursor.openRow.rows = cursor.rows + 1 := rfl
  have hlength := congrArg List.length (h.styled_wrap columns)
  rw [List.length_map, StyledLine.wrap, StyledLine.length_ofPieces] at hlength
  rw [hlength, Layout.Cursor.rows_seek hoffset, hcolumn, hrows]
  omega

theorem leads_join_of_getElem? {paragraph : List Row} {k : Nat} {row : Row}
    (hrow : paragraph[k]? = some row) :
    (join paragraph).leads
      =
    (join (paragraph.take k)).leads ++ (row.leads ++ (join (paragraph.drop (k + 1))).leads) := by
  obtain ⟨hk, rfl⟩ := List.getElem?_eq_some_iff.mp hrow
  have hsplit : paragraph = paragraph.take k ++ paragraph[k] :: paragraph.drop (k + 1) := by
    rw [← List.drop_eq_getElem_cons hk, List.take_append_drop]
  calc (join paragraph).leads
    _ = (paragraph.take k ++ paragraph[k] :: paragraph.drop (k + 1)).flatMap leads := by
      rw [leads_join, ← hsplit]
    _ = _ := by
      rw [List.flatMap_append, List.flatMap_cons, leads_join, leads_join]

theorem exists_seek_eq {paragraph : List Row} (h : ∀ row ∈ paragraph, row.WellFormed) {k : Nat}
    {row : Row} (hrow : paragraph[k]? = some row)
    (hend : row.softWrapped = false → paragraph.drop (k + 1) = []) (columns column start : Nat) :
    ∃ offset cells,
      Anchor.locate row.softWrapped column 0
          (start + styledSize (join (paragraph.take k)).styled.chars) row.cells
        = .text (start + offset) cells
      ∧ offset ≤ styledSize (join paragraph).styled.chars
      ∧ ∀ cursor reached : Layout.Cursor,
        cursor.openRow.seek (max columns 1) (start + offset) start (join paragraph).styled.chars
            = reached →
          locate (placeOf paragraph k column) (((join paragraph).wrap columns).map size)
              = (reached.rows - (cursor.rows + 1), reached.column + cells)
            ∧ cursor.rows < reached.rows := by
  have hmem : row ∈ paragraph := List.mem_of_getElem? hrow
  have hearlier : ∀ row ∈ paragraph.take k, row.WellFormed :=
    fun row hrow => h row (List.mem_of_mem_take hrow)
  obtain ⟨before, after, cells, hleads, hlocate, hplace, hcells, hcells'⟩ :=
    Anchor.exists_locate_eq row.softWrapped
      (start + styledSize (join (paragraph.take k)).styled.chars) (h row hmem).isLead
      (Nat.zero_le column)
  rw [← (h row hmem).cells_eq, Nat.zero_add, Nat.zero_add] at hplace
  rw [← (h row hmem).cells_eq] at hlocate
  have hjoin : (join paragraph).leads
      = ((join (paragraph.take k)).leads ++ before)
        ++ (after ++ (join (paragraph.drop (k + 1))).leads) := by
    rw [leads_join_of_getElem? hrow, hleads]
    simp only [List.append_assoc]
  refine ⟨styledSize (((join (paragraph.take k)).leads ++ before).flatMap Cell.styled), cells, ?_, ?_,
    ?_⟩
  · rw [hlocate, List.flatMap_append, styledSize_append, Nat.add_assoc]
    rfl
  · simp only [styled, hjoin, List.flatMap_append, styledSize_append]
    omega
  · intro cursor reached hreached
    have hjoined := wellFormed_join h
    have hall := hjoined.isLead
    rw [styled, hjoin] at hreached
    rw [hjoin] at hall
    -- The cells beyond the end of a soft-wrapped row do not count. Beyond that of a hard-wrapped one
    -- they do, but no glyph follows there.
    have hhead : ∀ lead ∈ (after ++ (join (paragraph.drop (k + 1))).leads).head?,
        cells < lead.width := by
      intro lead hlead
      cases after with
      | cons first after => exact hcells lead hlead
      | nil =>
        have hwidth := (hall lead (List.mem_append_right _ (List.mem_of_mem_head? hlead))).width_pos
        cases hsoft : row.softWrapped with
        | true => rwa [hcells' rfl hsoft]
        | false =>
          rw [hend hsoft] at hlead
          contradiction
    have hlocate := Layout.Cursor.seek_eq_locate hall hhead cursor.openRow start hreached rfl
    have hcolumn : cursor.openRow.column = 0 := rfl
    have hwrap : (join paragraph).wrap columns
        = ofPieces (join paragraph).softWrapped
          (wrapCells (max columns 1) 0 (join paragraph).cells).1
          (wrapCells (max columns 1) 0 (join paragraph).cells).2 := rfl
    rw [← hjoin, ← hjoined.cells_eq, hcolumn, Nat.zero_add, Nat.zero_add, List.flatMap_append,
      List.length_append, ← (wellFormed_join hearlier).cells_eq] at hlocate
    rw [placeOf, hrow, Option.elim_some, hwrap, map_size_ofPieces]
    simp only [size]
    rw [← hplace, ← Nat.add_assoc]
    exact hlocate

end Row

namespace FrozenRow

theorem join_eq_styled {rows : List FrozenRow} (h : ∀ row ∈ rows, row.line.toRow.styled = row.line) :
    (join rows).2 = (Row.join (rows.map (·.line.toRow))).styled := by
  rw [Row.styled_join, List.map_map, join]
  dsimp only
  rw [List.map_congr_left fun row hrow => (h row hrow).symm]
  rfl

theorem paragraphs_map_toRow (rows : List FrozenRow) :
    Row.paragraphs (rows.map (·.line.toRow))
      =
    (chains (·.line.softWrapped) rows).map (·.map (·.line.toRow)) := by
  rw [Row.paragraphs, chains_map]
  simp only [StyledLine.softWrapped_toRow]

theorem length_flatMap_bytes {rows : List FrozenRow} (h : ∀ row ∈ rows, row.line.softWrapped = true) :
    (rows.flatMap bytes).length = styledSize (join rows).2.chars := by
  induction rows with
  | nil => rfl
  | cons row rows ih =>
    rw [List.forall_mem_cons] at h
    have hsize := row.line.byteSize_eq
    rw [h.1, if_pos rfl, Nat.add_zero] at hsize
    rw [List.flatMap_cons, List.length_append, ih h.2]
    change row.line.byteSize + _ = styledSize (row.line.chars ++ _)
    rw [hsize, styledSize_append]
    rfl

theorem exists_seek_paragraph_eq {init : List FrozenRow} {last row : FrozenRow} {start k : Nat}
    (hplaced : PlacedFrom start (init ++ [last]))
    (hinit : ∀ row ∈ init, row.line.softWrapped = true)
    (h : ∀ row ∈ init ++ [last], row.line.toRow.WellFormed ∧ row.line.toRow.styled = row.line)
    (hrow : (init ++ [last])[k]? = some row) (columns column : Nat) :
    ∃ offset cells,
      Anchor.locate row.line.softWrapped column 0 row.start row.line.toRow.cells
        = .text (start + offset) cells
      ∧ offset ≤ styledSize (join (init ++ [last])).2.chars
      ∧ ∀ cursor reached : Layout.Cursor,
        cursor.openRow.seek (max columns 1) (start + offset) start (join (init ++ [last])).2.chars
            = reached →
          locate (Row.placeOf ((init ++ [last]).map (·.line.toRow)) k column)
                (((Row.join ((init ++ [last]).map (·.line.toRow))).wrap columns).map Row.size)
              = (reached.rows - (cursor.rows + 1), reached.column + cells)
            ∧ cursor.rows < reached.rows := by
  have hk : k < init.length + 1 := by
    have := (List.getElem?_eq_some_iff.mp hrow).1
    rwa [List.length_append, List.length_singleton] at this
  have htake : ∀ row ∈ (init ++ [last]).take k, row.line.softWrapped = true := by
    rw [List.take_append_of_le_length (Nat.lt_succ_iff.mp hk)]
    exact fun row hrow => hinit row (List.mem_of_mem_take hrow)
  have hstart : row.start = start
      + styledSize (Row.join (((init ++ [last]).map (·.line.toRow)).take k)).styled.chars := by
    rw [(hplaced.getElem? hrow).1, length_flatMap_bytes htake, ← List.map_take,
      join_eq_styled fun row hrow => (h row (List.mem_of_mem_take hrow)).2]
  have hrow' : ((init ++ [last]).map (·.line.toRow))[k]? = some row.line.toRow := by
    rw [List.getElem?_map, hrow]
    rfl
  have hend : row.line.toRow.softWrapped = false →
      ((init ++ [last]).map (·.line.toRow)).drop (k + 1) = [] := by
    intro hhard
    rw [StyledLine.softWrapped_toRow] at hhard
    apply List.drop_eq_nil_of_le
    rw [List.length_map, List.length_append, List.length_singleton]
    by_contra hlt
    rw [List.getElem?_append_left (by omega)] at hrow
    rw [hinit row (List.mem_of_getElem? hrow)] at hhard
    contradiction
  have hseek := Row.exists_seek_eq (List.forall_mem_map.mpr fun row hrow => (h row hrow).1) hrow'
    hend columns column start
  rwa [← hstart, StyledLine.softWrapped_toRow, ← join_eq_styled fun row hrow => (h row hrow).2]
    at hseek

theorem exists_seekLines_eq {frozen : List FrozenRow} {start : Nat}
    (hplaced : PlacedFrom start frozen)
    (h : ∀ row ∈ frozen, row.line.toRow.WellFormed ∧ row.line.toRow.styled = row.line) {k : Nat}
    {row : FrozenRow} (hrow : frozen[k]? = some row) (columns column : Nat) :
    ∃ offset cells,
      Anchor.locate row.line.softWrapped column 0 row.start row.line.toRow.cells = .text offset cells
      ∧ start ≤ offset
      ∧ ∀ cursor reached : Layout.Cursor,
        cursor.seekLines (max columns 1) offset start (paragraphs frozen) = reached →
          Row.relocate columns k column (Row.paragraphs (frozen.map (·.line.toRow)))
              = (reached.rows - (cursor.rows + 1), reached.column + cells)
            ∧ cursor.rows < reached.rows := by
  -- The induction is on the paragraphs: the row is in the first one, or in one after it.
  induction frozen using chains_rec (fun row : FrozenRow => row.line.softWrapped)
    generalizing start k with
  | nil => simp at hrow
  | append init last rest hinit hlast ih =>
    have hfirst : ∀ row ∈ init ++ [last],
        row.line.toRow.WellFormed ∧ row.line.toRow.styled = row.line :=
      fun row hrow => h row (List.mem_append_left _ hrow)
    have hline := join_eq_styled fun row hrow => (hfirst row hrow).2
    have hjoined := Row.wellFormed_join
      (List.forall_mem_map.mpr fun row hrow => (hfirst row hrow).1)
    have hsize := (join (init ++ [last])).2.byteSize_eq
    rw [softWrapped_join] at hsize
    rw [placedFrom_append] at hplaced
    rw [paragraphs_map_toRow, paragraphs, chains_append hinit hlast, List.map_cons, List.map_cons,
      ← paragraphs, ← paragraphs_map_toRow, Row.relocate, List.length_map]
    by_cases hk : k < (init ++ [last]).length
    · rw [List.getElem?_append_left hk] at hrow
      obtain ⟨offset, cells, hlocate, hle, hseek⟩ :=
        exists_seek_paragraph_eq hplaced.1 hinit hfirst hrow columns column
      refine ⟨start + offset, cells, hlocate, Nat.le_add_right _ _, ?_⟩
      intro cursor reached hreached
      rw [if_pos hk]
      apply hseek
      rw [← hreached, Layout.Cursor.seekLines]
      split
      · rfl
      · next hlt =>
        -- Only where the paragraph has no line break does the layout go on past its end.
        have hsoft : last.line.softWrapped = true := by
          by_contra hhard
          rw [if_neg hhard] at hsize
          omega
        rw [hlast hsoft]
        rfl
    · rw [List.getElem?_append_right (Nat.not_lt.mp hk)] at hrow
      have hbytes : ((init ++ [last]).flatMap bytes).length = (join (init ++ [last])).2.byteSize := by
        rw [← bytes_join hinit]
        rfl
      rw [hbytes] at hplaced
      obtain ⟨offset, cells, hlocate, hle, hseek⟩ :=
        ih hplaced.2 (fun row hrow => h row (List.mem_append_right _ hrow)) hrow
      refine ⟨offset, cells, hlocate, by omega, ?_⟩
      intro cursor reached hreached
      rw [Layout.Cursor.seekLines, if_neg (by omega)] at hreached
      obtain ⟨hrelocate, hlt⟩ := hseek _ _ hreached
      have hend : start + styledSize (join (init ++ [last])).2.chars ≤ offset := by
        omega
      rw [hline] at hend
      have hrows := Row.rows_seek_eq hjoined columns cursor hend
      rw [← hline] at hrows
      rw [if_neg hk, hrelocate]
      refine ⟨?_, by omega⟩
      rw [Prod.mk.injEq]
      exact ⟨by omega, rfl⟩

end FrozenRow

end Scrollback
