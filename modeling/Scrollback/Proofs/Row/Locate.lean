import Mathlib.Algebra.Order.Ring.Nat
import Scrollback.Position
import Scrollback.Proofs.Row.Paragraph

/-!
This module contains where the columns of rows are after the paragraphs of the rows were split anew.
-/

namespace Scrollback

/--
The number of the piece and the place in it that a place stands for when pieces of the given sizes
follow one another. A place after all pieces belongs to the last.
-/
def locate (place : Nat) : List Nat → Nat × Nat
  | [] => (0, place)
  | size :: sizes =>
    if place < size ∨ sizes = [] then
      (0, place)
    else
      ((locate (place - size) sizes).1 + 1, (locate (place - size) sizes).2)

theorem locate_of_lt {place size : Nat} (h : place < size) (sizes : List Nat) :
    locate place (size :: sizes) = (0, place) := by
  rw [locate, if_pos (Or.inl h)]

theorem locate_singleton (place size : Nat) : locate place [size] = (0, place) := by
  rw [locate, if_pos (Or.inr rfl)]

theorem locate_of_le {place size : Nat} (h : size ≤ place) (next : Nat) (sizes : List Nat) :
    locate place (size :: next :: sizes)
      =
    ((locate (place - size) (next :: sizes)).1 + 1, (locate (place - size) (next :: sizes)).2) := by
  rw [locate, if_neg]
  rintro (hlt | hnil)
  · omega
  · contradiction

theorem locate_append (sizes : List Nat) (place : Nat) {rest : List Nat} (h : rest ≠ []) :
    locate (sizes.sum + place) (sizes ++ rest)
      =
    (sizes.length + (locate place rest).1, (locate place rest).2) := by
  induction sizes with
  | nil => simp
  | cons size sizes ih =>
    obtain ⟨next, later, hnext⟩ :=
      List.exists_cons_of_ne_nil (List.append_ne_nil_of_right_ne_nil sizes h)
    rw [List.cons_append, hnext, List.sum_cons, locate_of_le (by omega), ← hnext,
      show size + sizes.sum + place - size = sizes.sum + place by omega, ih, List.length_cons]
    dsimp only
    rw [Nat.add_right_comm]

namespace Row

/--
The place among all cells of a paragraph that a column of one of its rows stands for. Columns to the
right of a row that continues on the next one stand for what comes next.
-/
def placeOf (paragraph : List Row) (index column : Nat) : Nat :=
  (join (paragraph.take index)).size
    + (paragraph[index]?).elim 0 fun row => if row.softWrapped then min column row.size else column

/--
The number and the column of the row that shows a column of a row after the paragraphs were split in
rows of at most `columns` columns. What is to the right of a paragraph stays there.
-/
def relocate (columns index column : Nat) : List (List Row) → Nat × Nat
  | [] => (index, column)
  | paragraph :: paragraphs =>
    let rows := (join paragraph).wrap columns
    if index < paragraph.length then
      locate (placeOf paragraph index column) (rows.map size)
    else
      let (row, column) := relocate columns (index - paragraph.length) column paragraphs
      (rows.length + row, column)

theorem map_cells_ofPieces (softWrapped : Bool) (piece : List Cell) (later : List (List Cell)) :
    (ofPieces softWrapped piece later).map (·.cells) = piece :: later := by
  induction later generalizing piece with
  | nil => rfl
  | cons next later ih => rw [ofPieces, List.map_cons, ih]

theorem map_size_ofPieces (softWrapped : Bool) (piece : List Cell) (later : List (List Cell)) :
    (ofPieces softWrapped piece later).map size = piece.length :: later.map List.length := by
  have hcells := congrArg (List.map List.length) (map_cells_ofPieces softWrapped piece later)
  rw [List.map_map] at hcells
  exact hcells

theorem cells_join_append (rows rows' : List Row) :
    (join (rows ++ rows')).cells = (join rows).cells ++ (join rows').cells := by
  rw [join, join, join, List.flatMap_append]

theorem size_join_append (rows rows' : List Row) :
    (join (rows ++ rows')).size = (join rows).size + (join rows').size := by
  rw [size, cells_join_append, List.length_append]
  rfl

theorem size_join_take_add_le {rows : List Row} {k : Nat} {row : Row} (h : rows[k]? = some row) :
    (join (rows.take k)).size + row.size ≤ (join rows).size := by
  obtain ⟨hk, rfl⟩ := List.getElem?_eq_some_iff.mp h
  have hsplit : (join rows).size = (join (rows.take k ++ ([rows[k]] ++ rows.drop (k + 1)))).size := by
    rw [List.singleton_append, ← List.drop_eq_getElem_cons hk, List.take_append_drop]
  have hrow : (join [rows[k]]).size = rows[k].size := by
    simp [join, size]
  rw [hsplit, size_join_append, size_join_append, hrow]
  omega

theorem cells_join (rows : List Row) : (join rows).cells = (rows.map (·.cells)).flatten :=
  rfl

theorem cells_join_wrap (row : Row) (columns : Nat) : (join (row.wrap columns)).cells = row.cells := by
  rw [cells_join, wrap, map_cells_ofPieces, List.flatten_cons, wrapCells_flatten]

theorem size_join_wrap (row : Row) (columns : Nat) : (join (row.wrap columns)).size = row.size := by
  rw [size, cells_join_wrap]
  rfl

theorem softWrapped_join_concat (init : List Row) (last : Row) :
    (join (init ++ [last])).softWrapped = last.softWrapped := by
  rw [join, List.getLast?_concat, Option.any_some]

section

variable {init rest : List Row} {last : Row}

theorem paragraphs_append (hinit : ∀ row ∈ init, row.softWrapped = true)
    (hlast : last.softWrapped = true → rest = []) :
    paragraphs (init ++ [last] ++ rest) = (init ++ [last]) :: paragraphs rest :=
  chains_append hinit hlast

theorem rewrap_append (hinit : ∀ row ∈ init, row.softWrapped = true)
    (hlast : last.softWrapped = true → rest = []) (columns : Nat) :
    rewrap (init ++ [last] ++ rest) columns
      =
    (join (init ++ [last])).wrap columns ++ rewrap rest columns := by
  rw [rewrap, paragraphs_append hinit hlast, List.flatMap_cons]
  rfl

theorem relocate_append (hinit : ∀ row ∈ init, row.softWrapped = true)
    (hlast : last.softWrapped = true → rest = []) (columns index column : Nat) :
    relocate columns index column (paragraphs (init ++ [last] ++ rest))
      =
    if index < (init ++ [last]).length then
      locate (placeOf (init ++ [last]) index column) (((join (init ++ [last])).wrap columns).map size)
    else
      (((join (init ++ [last])).wrap columns).length
          + (relocate columns (index - (init ++ [last]).length) column (paragraphs rest)).1,
        (relocate columns (index - (init ++ [last]).length) column (paragraphs rest)).2) := by
  rw [paragraphs_append hinit hlast, relocate]

end

theorem cells_join_rewrap (rows : List Row) (columns : Nat) :
    (join (rewrap rows columns)).cells = (join rows).cells := by
  induction rows using chains_rec (fun row : Row => row.softWrapped) with
  | nil => rfl
  | append init last rest hinit hlast ih =>
    rw [rewrap_append hinit hlast, cells_join_append, cells_join_wrap, ih, ← cells_join_append]

end Row

/--
Where a marker is after rows, the first of which has index `start`, were brought to another number of
columns and the oldest were dropped until `maxRows` were left.

Markers below the rows keep their distance from the last one, and markers above them hold on to the
first cell. Markers on rows that are dropped go to the first cell that is left.
-/
def Position.rewrap (rows : List Row) (start maxRows columns : Nat) (marker : Position) : Position :=
  let finish := start + (Row.rewrap rows columns).length
  let first := max start (finish - maxRows)
  if start + rows.length ≤ marker.line then
    { line := finish + (marker.line - (start + rows.length)), column := marker.column }
  else
    let column := if marker.line < start then 0 else marker.column
    let (row, column) := Row.relocate columns (marker.line - start) column (Row.paragraphs rows)
    if first ≤ start + row then { line := start + row, column } else { line := first, column := 0 }

namespace Position

variable {rows : List Row} {start maxRows columns : Nat} {marker : Position}

/--
`rewrap` with sums of 64 bits: of the line of a marker below the rows, and of the column of any other.
-/
def rewrap64 (rows : List Row) (start maxRows columns : Nat) (marker : Position) : Position :=
  let new := marker.rewrap rows start maxRows columns
  if start + rows.length ≤ marker.line then
    { new with line := new.line % 2 ^ 64 }
  else
    { new with column := new.column % 2 ^ 64 }

def InRange (position : Position) : Prop :=
  position.line < 2 ^ 64 ∧ position.column < 2 ^ 64

instance : DecidablePred InRange :=
  fun position => inferInstanceAs (Decidable (position.line < 2 ^ 64 ∧ position.column < 2 ^ 64))

theorem rewrap64_of_lt (hmarker : marker.line < start + rows.length)
    (hcolumn : (marker.rewrap rows start maxRows columns).column < 2 ^ 64) :
    marker.rewrap64 rows start maxRows columns = marker.rewrap rows start maxRows columns := by
  rw [rewrap64, if_neg (Nat.not_le.mpr hmarker), Nat.mod_eq_of_lt hcolumn]

end Position

end Scrollback
