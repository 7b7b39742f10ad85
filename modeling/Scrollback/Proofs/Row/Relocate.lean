import Mathlib.Data.Prod.Lex
import Scrollback.Proofs.Row.End

/-!
This module contains the proof that positions keep their order when rows are brought to another number of
columns, and that they return to where they were when the rows do.
-/

namespace Scrollback

/--
Whether pieces of the given sizes that follow one another have the place in the given column of one of
them. Only the last piece has columns after its end.
-/
def IsLocated (sizes : List Nat) (place index column : Nat) : Prop :=
  ∃ size, sizes[index]? = some size ∧ (sizes.take index).sum + column = place
    ∧ (column < size ∨ index + 1 = sizes.length)

theorem isLocated_locate {sizes : List Nat} (h : sizes ≠ []) (place : Nat) :
    IsLocated sizes place (locate place sizes).1 (locate place sizes).2 := by
  induction sizes generalizing place with
  | nil => contradiction
  | cons size sizes ih =>
    by_cases hlt : place < size
    · rw [locate_of_lt hlt]
      exact ⟨size, rfl, Nat.zero_add _, Or.inl hlt⟩
    · cases sizes with
      | nil =>
        rw [locate_singleton]
        exact ⟨size, rfl, Nat.zero_add _, Or.inr rfl⟩
      | cons next sizes =>
        obtain ⟨found, hfound, hplace, hlast⟩ := ih (List.cons_ne_nil _ _) (place - size)
        rw [locate_of_le (Nat.not_lt.mp hlt)]
        refine ⟨found, hfound, ?_, ?_⟩
        · rw [List.take_succ_cons, List.sum_cons]
          omega
        · rw [List.length_cons]
          omega

theorem IsLocated.locate_eq {sizes : List Nat} {place index column : Nat}
    (h : IsLocated sizes place index column) : locate place sizes = (index, column) := by
  obtain ⟨size, hsize, rfl, hlast⟩ := h
  obtain ⟨hindex, rfl⟩ := List.getElem?_eq_some_iff.mp hsize
  have hlocate : locate column (sizes[index] :: sizes.drop (index + 1)) = (0, column) := by
    rcases hlast with hlt | hlength
    · exact locate_of_lt hlt _
    · rw [List.drop_of_length_le (by omega), locate_singleton]
  have happend := locate_append (sizes.take index) column
    (List.cons_ne_nil sizes[index] (sizes.drop (index + 1)))
  rw [← List.drop_eq_getElem_cons hindex, List.take_append_drop, List.drop_eq_getElem_cons hindex,
    hlocate, List.length_take_of_le (Nat.le_of_lt hindex)] at happend
  exact happend

namespace Row

variable {init rest rows : List Row} {last row : Row} {index column index' column' : Nat}

theorem map_size_wrap_ne_nil (row : Row) (columns : Nat) : (row.wrap columns).map size ≠ [] :=
  mt List.map_eq_nil_iff.mp (row.wrap_ne_nil columns)

theorem locate_wrap_lt (row : Row) (columns place : Nat) :
    (locate place ((row.wrap columns).map size)).1 < (row.wrap columns).length := by
  obtain ⟨size, hsize, -⟩ := isLocated_locate (row.map_size_wrap_ne_nil columns) place
  simpa using (List.getElem?_eq_some_iff.mp hsize).1

theorem relocate_lt (h : index < rows.length) (columns column : Nat) :
    (relocate columns index column (paragraphs rows)).1 < (rewrap rows columns).length := by
  induction rows using chains_rec (fun row : Row => row.softWrapped) generalizing index with
  | nil => contradiction
  | append init last rest hinit hlast ih =>
    rw [relocate_append hinit hlast, rewrap_append hinit hlast]
    rw [List.length_append] at h
    split
    · rw [List.length_append]
      exact Nat.lt_add_right _ (locate_wrap_lt _ _ _)
    · have hrest := ih (Nat.sub_lt_left_of_lt_add (by omega) h)
      exact Nat.lt_of_lt_of_eq (Nat.add_lt_add_left hrest _) List.length_append.symm

theorem placeOf_eq {place : Nat} (h : IsLocated ((init ++ [last]).map size) place index column)
    (hlast : last.softWrapped = true → place ≤ (join (init ++ [last])).size) :
    placeOf (init ++ [last]) index column = place := by
  obtain ⟨_, hsize, rfl, hcolumn⟩ := h
  rw [List.getElem?_map, Option.map_eq_some_iff] at hsize
  obtain ⟨row, hrow, rfl⟩ := hsize
  rw [← List.map_take, ← size_join] at hlast ⊢
  rw [placeOf, hrow, Option.elim_some]
  split
  · next hsoft =>
    rw [Nat.min_eq_left]
    rcases hcolumn with hlt | hlength
    · exact Nat.le_of_lt hlt
    · obtain rfl : index = init.length := by
        simpa using hlength
      rw [List.getElem?_concat_length, Option.some.injEq] at hrow
      subst hrow
      have hplace := hlast hsoft
      rw [List.take_left, size_join_append, size_join [last], List.map_singleton, List.sum_singleton]
        at hplace
      omega
  · rfl

theorem placeOf_le (hinit : ∀ row ∈ init, row.softWrapped = true) (hlast : last.softWrapped = true)
    (hindex : index < (init ++ [last]).length) (column : Nat) :
    placeOf (init ++ [last]) index column ≤ (join (init ++ [last])).size := by
  have hrow := List.getElem?_eq_getElem hindex
  have hsoft : (init ++ [last])[index].softWrapped = true := by
    have hall : ∀ row ∈ init ++ [last], row.softWrapped = true := by
      rw [List.forall_mem_append, List.forall_mem_singleton]
      exact ⟨hinit, hlast⟩
    exact hall _ (List.getElem_mem hindex)
  have hsize := size_join_take_add_le hrow
  rw [placeOf, hrow, Option.elim_some, if_pos hsoft]
  omega

theorem placeOf_wrap (hinit : ∀ row ∈ init, row.softWrapped = true)
    (hindex : index < (init ++ [last]).length) (columns column : Nat) :
    placeOf ((join (init ++ [last])).wrap columns)
        (locate (placeOf (init ++ [last]) index column)
          (((join (init ++ [last])).wrap columns).map size)).1
        (locate (placeOf (init ++ [last]) index column)
          (((join (init ++ [last])).wrap columns).map size)).2
      =
    placeOf (init ++ [last]) index column := by
  have hlocated := isLocated_locate ((join (init ++ [last])).map_size_wrap_ne_nil columns)
    (placeOf (init ++ [last]) index column)
  have hsize := size_join_wrap (join (init ++ [last])) columns
  obtain ⟨before, piece, heq, -, hpiece⟩ := (join (init ++ [last])).exists_wrap_eq columns
  rw [heq] at hlocated hsize ⊢
  apply placeOf_eq hlocated
  rw [hpiece, softWrapped_join_concat, hsize]
  exact fun hlast => placeOf_le hinit hlast hindex column

theorem paragraphs_rewrap (rows : List Row) (columns : Nat) :
    paragraphs (rewrap rows columns) = (paragraphs rows).map fun paragraph =>
      (join paragraph).wrap columns := by
  induction rows using chains_rec (fun row : Row => row.softWrapped) with
  | nil => rfl
  | append init last rest hinit hlast ih =>
    obtain ⟨before, piece, heq, hbefore, hpiece⟩ := (join (init ++ [last])).exists_wrap_eq columns
    rw [rewrap_append hinit hlast, paragraphs_append hinit hlast, List.map_cons, ← ih, heq]
    apply chains_append hbefore
    intro hsoft
    rw [hpiece, softWrapped_join_concat] at hsoft
    rw [hlast hsoft]
    rfl

theorem rewrap_rewrap (rows : List Row) (columns columns' : Nat) :
    rewrap (rewrap rows columns) columns' = rewrap rows columns' := by
  rw [rewrap, paragraphs_rewrap, List.flatMap_map, rewrap]
  apply List.flatMap_congr
  intro paragraph _
  rw [join_wrap]

theorem relocate_relocate (hindex : index < rows.length) (columns columns' column : Nat) :
    relocate columns' (relocate columns index column (paragraphs rows)).1
        (relocate columns index column (paragraphs rows)).2 (paragraphs (rewrap rows columns))
      =
    relocate columns' index column (paragraphs rows) := by
  induction rows using chains_rec (fun row : Row => row.softWrapped) generalizing index with
  | nil => contradiction
  | append init last rest hinit hlast ih =>
    have hparagraphs : paragraphs (rewrap (init ++ [last] ++ rest) columns)
        = (join (init ++ [last])).wrap columns :: paragraphs (rewrap rest columns) := by
      rw [paragraphs_rewrap, paragraphs_rewrap, paragraphs_append hinit hlast]
      rfl
    rw [hparagraphs, relocate_append hinit hlast, relocate_append hinit hlast, relocate]
    rw [List.length_append] at hindex
    split
    · next hlt =>
      rw [if_pos (locate_wrap_lt _ _ _), placeOf_wrap hinit hlt, join_wrap]
    · next hge =>
      dsimp only
      rw [if_neg (Nat.not_lt.mpr (Nat.le_add_right _ _)), Nat.add_sub_cancel_left, ih (by omega),
        join_wrap]

theorem getElem?_cells_join (hrow : rows[index]? = some row) (hcolumn : column < row.size) :
    (join rows).cells[(join (rows.take index)).size + column]? = row.cells[column]? := by
  obtain ⟨hindex, rfl⟩ := List.getElem?_eq_some_iff.mp hrow
  have hcells : (join rows).cells
      = (join (rows.take index)).cells ++ ((join [rows[index]]).cells
        ++ (join (rows.drop (index + 1))).cells) := by
    rw [← cells_join_append, ← cells_join_append, List.singleton_append,
      ← List.drop_eq_getElem_cons hindex, List.take_append_drop]
  have hjoin : (join [rows[index]]).cells = rows[index].cells := by
    rw [cells_join, List.map_singleton, List.flatten_singleton]
  rw [hcells, size, List.getElem?_append_right (Nat.le_add_right _ _), Nat.add_sub_cancel_left, hjoin,
    List.getElem?_append_left hcolumn]

theorem exists_relocate_eq (hrow : rows[index]? = some row) (hcolumn : column < row.size)
    (columns : Nat) :
    ∃ new, (rewrap rows columns)[(relocate columns index column (paragraphs rows)).1]? = some new
      ∧ (relocate columns index column (paragraphs rows)).2 < new.size
      ∧ (join ((rewrap rows columns).take (relocate columns index column (paragraphs rows)).1)).size
          + (relocate columns index column (paragraphs rows)).2
        = (join (rows.take index)).size + column := by
  induction rows using chains_rec (fun row : Row => row.softWrapped) generalizing index with
  | nil => simp at hrow
  | append init last rest hinit hlast ih =>
    rw [rewrap_append hinit hlast, relocate_append hinit hlast]
    by_cases hindex : index < (init ++ [last]).length
    · rw [if_pos hindex, List.take_append_of_le_length (Nat.le_of_lt hindex)]
      rw [List.getElem?_append_left hindex] at hrow
      have hplaceOf : placeOf (init ++ [last]) index column
          = (join ((init ++ [last]).take index)).size + column := by
        rw [placeOf, hrow, Option.elim_some]
        split
        · rw [Nat.min_eq_left (Nat.le_of_lt hcolumn)]
        · rfl
      obtain ⟨_, hget, hplace, hfits⟩ := isLocated_locate
        ((join (init ++ [last])).map_size_wrap_ne_nil columns) (placeOf (init ++ [last]) index column)
      rw [List.getElem?_map, Option.map_eq_some_iff] at hget
      obtain ⟨new, hget, rfl⟩ := hget
      have hbound := (List.getElem?_eq_some_iff.mp hget).1
      rw [← List.map_take, ← size_join] at hplace
      refine ⟨new, ?_, ?_, ?_⟩
      · rw [List.getElem?_append_left hbound, hget]
      · -- The last of the new rows ends where the paragraph does.
        have hsize := size_join_take_add_le hrow
        have hsplit := size_join_wrap (join (init ++ [last])) columns
        rcases hfits with hlt | hlength
        · exact hlt
        · rw [List.length_map] at hlength
          rw [← List.take_append_drop (locate (placeOf (init ++ [last]) index column)
              (((join (init ++ [last])).wrap columns).map size)).1 ((join (init ++ [last])).wrap columns),
            size_join_append, List.drop_eq_getElem_cons hbound, List.drop_of_length_le (by omega),
            (List.getElem?_eq_some_iff.mp hget).2, size_join [new], List.map_singleton,
            List.sum_singleton] at hsplit
          omega
      · rw [List.take_append_of_le_length (Nat.le_of_lt hbound), hplace, hplaceOf]
    · obtain ⟨k, rfl⟩ := Nat.exists_eq_add_of_le (Nat.not_lt.mp hindex)
      rw [List.getElem?_append_right (Nat.le_add_right _ _), Nat.add_sub_cancel_left] at hrow
      rw [if_neg hindex, Nat.add_sub_cancel_left, List.take_length_add_append, size_join_append]
      obtain ⟨new, hget, hlt, hplace⟩ := ih hrow
      refine ⟨new, ?_, hlt, ?_⟩
      · rw [List.getElem?_append_right (Nat.le_add_right _ _), Nat.add_sub_cancel_left]
        exact hget
      · dsimp only
        rw [List.take_length_add_append, size_join_append, size_join_wrap, Nat.add_assoc, hplace,
          Nat.add_assoc]

/--
Whether a row has the given cell in a column, with `number` cells before it in that row and all earlier
ones.
-/
structure HasCell (rows : List Row) (index column number : Nat) (cell : Cell) : Prop where
  exists_row : ∃ row, rows[index]? = some row ∧ row.cells[column]? = some cell
  number_eq : (join (rows.take index)).size + column = number

theorem HasCell.relocate {number : Nat} {cell : Cell} (h : HasCell rows index column number cell)
    (columns : Nat) :
    HasCell (rewrap rows columns) (relocate columns index column (paragraphs rows)).1
      (relocate columns index column (paragraphs rows)).2 number cell := by
  obtain ⟨⟨row, hrow, hcell⟩, rfl⟩ := h
  have hcolumn : column < row.size := (List.getElem?_eq_some_iff.mp hcell).1
  obtain ⟨new, hnew, hlt, hnumber⟩ := exists_relocate_eq hrow hcolumn columns
  refine ⟨⟨new, hnew, ?_⟩, hnumber⟩
  rw [← getElem?_cells_join hnew hlt, hnumber, cells_join_rewrap, getElem?_cells_join hrow hcolumn,
    hcell]

theorem wrap_join_of_rewrap_eq {columns : Nat} (h : rewrap rows columns = rows) :
    ∀ paragraph ∈ paragraphs rows, (join paragraph).wrap columns = paragraph := by
  have hparagraphs := paragraphs_rewrap rows columns
  rw [h, eq_comm] at hparagraphs
  apply List.map_inj_left.mp
  rw [hparagraphs, List.map_id']

theorem relocate_eq_self {columns : Nat}
    (h : ∀ paragraph ∈ paragraphs rows, (join paragraph).wrap columns = paragraph)
    (hrow : rows[index]? = some row)
    (hcolumn : row.softWrapped = true →
      column < row.size ∨ index + 1 = rows.length ∧ column = row.size) :
    relocate columns index column (paragraphs rows) = (index, column) := by
  induction rows using chains_rec (fun row : Row => row.softWrapped) generalizing index with
  | nil => contradiction
  | append init last rest hinit hlast ih =>
    rw [paragraphs_append hinit hlast, List.forall_mem_cons] at h
    rw [relocate_append hinit hlast, h.1]
    split
    · next hlt =>
      rw [List.getElem?_append_left hlt] at hrow
      rw [List.length_append] at hcolumn
      apply IsLocated.locate_eq
      have hplaceOf : placeOf (init ++ [last]) index column
          = (join ((init ++ [last]).take index)).size + column := by
        rw [placeOf, hrow, Option.elim_some]
        split
        · next hsoft =>
          have := hcolumn hsoft
          rw [Nat.min_eq_left (by omega)]
        · rfl
      refine ⟨row.size, by rw [List.getElem?_map, hrow, Option.map_some], ?_, ?_⟩
      · rw [← List.map_take, ← size_join, hplaceOf]
      · -- Only the last row of the paragraph may end it.
        rw [List.length_map]
        by_cases hsoft : row.softWrapped = true
        · have := hcolumn hsoft
          omega
        · right
          by_contra hne
          rw [List.length_append, List.length_singleton] at hlt hne
          rw [List.getElem?_append_left (by omega)] at hrow
          exact hsoft (hinit row (List.mem_of_getElem? hrow))
    · next hge =>
      have hle := Nat.not_lt.mp hge
      rw [List.getElem?_append_right hle] at hrow
      rw [List.length_append] at hcolumn
      have hrest := ih h.2 hrow fun hsoft => by
        have := hcolumn hsoft
        omega
      rw [hrest]
      dsimp only
      rw [Nat.add_sub_cancel' hle]

end Row

namespace Position

variable {rows : List Row} {start maxRows columns : Nat} {p q marker : Position}

theorem rewrap_of_lt (hfits : (Row.rewrap rows columns).length ≤ maxRows)
    (hmarker : marker.line < start + rows.length) :
    let new := Row.relocate columns (marker.line - start)
      (if marker.line < start then 0 else marker.column) (Row.paragraphs rows)
    marker.rewrap rows start maxRows columns = { line := start + new.1, column := new.2 } := by
  rw [rewrap]
  dsimp only
  rw [if_neg (Nat.not_le.mpr hmarker), if_pos (by omega)]

theorem rewrap_rewrap (hrows : rows ≠ []) (hfits : (Row.rewrap rows columns).length ≤ maxRows)
    (columns' : Nat) :
    (marker.rewrap rows start maxRows columns).rewrap (Row.rewrap rows columns) start maxRows columns'
      =
    marker.rewrap rows start maxRows columns' := by
  have hlength := List.length_pos_iff.mpr hrows
  rw [rewrap, Row.rewrap_rewrap]
  by_cases hmarker : start + rows.length ≤ marker.line
  · rw [rewrap, rewrap]
    dsimp only
    rw [if_pos hmarker, if_pos hmarker, if_pos (Nat.le_add_right _ _)]
    dsimp only
    rw [Nat.add_sub_cancel_left]
  · have hlt := Row.relocate_lt (by omega : marker.line - start < rows.length) columns
      (if marker.line < start then 0 else marker.column)
    have hrelocate := Row.relocate_relocate (by omega : marker.line - start < rows.length) columns
      columns' (if marker.line < start then 0 else marker.column)
    rw [rewrap_of_lt hfits (Nat.not_le.mp hmarker)]
    generalize Row.relocate columns (marker.line - start) _ (Row.paragraphs rows) = new
      at hlt hrelocate ⊢
    dsimp only
    rw [if_neg (by omega : ¬ start + (Row.rewrap rows columns).length ≤ start + new.1),
      if_neg (Nat.not_lt.mpr (Nat.le_add_right start new.1)), Nat.add_sub_cancel_left, hrelocate,
      rewrap]
    dsimp only
    rw [if_neg hmarker]

/--
Whether a position is neither above the rows nor past the content of a row that continues on the next. The
newest row has none that it continues on.
-/
def IsExact (rows : List Row) (start : Nat) (marker : Position) : Prop :=
  start ≤ marker.line ∧ ∀ row ∈ rows[marker.line - start]?, row.softWrapped = true →
    marker.column < row.size ∨ marker.line + 1 = start + rows.length ∧ marker.column = row.size

instance (rows : List Row) (start : Nat) (marker : Position) : Decidable (marker.IsExact rows start) :=
  inferInstanceAs (Decidable (_ ∧ _))

theorem IsExact.rewrap_eq (h : marker.IsExact rows start) (hrows : Row.rewrap rows columns = rows)
    (hfits : rows.length ≤ maxRows) : marker.rewrap rows start maxRows columns = marker := by
  obtain ⟨hstart, hcolumn⟩ := h
  by_cases hmarker : start + rows.length ≤ marker.line
  · rw [rewrap, hrows]
    dsimp only
    rw [if_pos hmarker, Nat.add_sub_cancel' hmarker]
  · have hrow := List.getElem?_eq_getElem (by omega : marker.line - start < rows.length)
    have hself : Row.relocate columns (marker.line - start) marker.column (Row.paragraphs rows)
        = (marker.line - start, marker.column) := by
      apply Row.relocate_eq_self (Row.wrap_join_of_rewrap_eq hrows) hrow
      intro hsoft
      have := hcolumn _ hrow hsoft
      omega
    rw [rewrap_of_lt (by rwa [hrows]) (Nat.not_le.mp hmarker), if_neg (Nat.not_lt.mpr hstart), hself]
    dsimp only
    rw [Nat.add_sub_cancel' hstart]

end Position

end Scrollback
