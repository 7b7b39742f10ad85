import Scrollback.Proofs.Row.Styled
import Scrollback.Row.Wrap

/-!
This module contains the proof that a row of complete glyphs is split where the text that it is
stored as is split.
-/

namespace Scrollback

namespace StyledLine

/--
Split text into the piece that is under construction and the pieces after it, as `Row.wrapCells`
splits cells. Characters without columns stay with the glyph before them.
-/
def wrapChars (columns : Nat) (column : Nat) :
    List (Char × Style) → List (Char × Style) × List (List (Char × Style))
  | [] => ([], [])
  | char :: chars =>
    let width := char.2.columns.toNat
    if 0 < width ∧ 0 < column ∧ columns < column + width then
      let (piece, later) := wrapChars columns width chars
      ([], (char :: piece) :: later)
    else
      let (piece, later) := wrapChars columns (column + width) chars
      (char :: piece, later)

def ofPieces (softWrapped : Bool) (piece : List (Char × Style)) :
    List (List (Char × Style)) → List StyledLine
  | [] => [{ chars := piece, softWrapped }]
  | next :: later => { chars := piece, softWrapped := true } :: ofPieces softWrapped next later

def wrap (line : StyledLine) (columns : Nat) : List StyledLine :=
  let (piece, later) := wrapChars (max columns 1) 0 line.chars
  ofPieces line.softWrapped piece later

end StyledLine

namespace Cell.IsLead

variable {lead : Cell}

theorem width_eq (h : lead.IsLead) : lead.width = lead.style.columns.toNat := by
  rw [width, h.1]
  rfl

theorem width_pos (h : lead.IsLead) : 0 < lead.width := by
  rw [← length_span h, span, List.length_cons]
  exact Nat.succ_pos _

end Cell.IsLead

namespace Row

open Cell (span)

variable {columns column : Nat}

theorem wrapCells_lead {lead : Cell} (h : lead.fragment = false) (cells : List Cell) :
    wrapCells columns column (lead :: cells)
      =
    if 0 < column ∧ columns < column + lead.width then
      ([], (lead :: (wrapCells columns lead.width cells).1) :: (wrapCells columns lead.width cells).2)
    else
      (lead :: (wrapCells columns (column + lead.width) cells).1,
        (wrapCells columns (column + lead.width) cells).2) := by
  rw [wrapCells, h]
  rfl

theorem wrapCells_replicate {cell : Cell} (h : cell.fragment = true) (count : Nat)
    (cells : List Cell) :
    wrapCells columns column (List.replicate count cell ++ cells)
      =
    (List.replicate count cell ++ (wrapCells columns column cells).1,
      (wrapCells columns column cells).2) := by
  induction count with
  | zero => rfl
  | succ count ih =>
    rw [List.replicate_succ, List.cons_append, wrapCells, h, ih]
    rfl

theorem wrapCells_span {lead : Cell} (h : lead.fragment = false) (cells : List Cell) :
    wrapCells columns column (lead.span ++ cells)
      =
    if 0 < column ∧ columns < column + lead.width then
      ([], (lead.span ++ (wrapCells columns lead.width cells).1)
        :: (wrapCells columns lead.width cells).2)
    else
      (lead.span ++ (wrapCells columns (column + lead.width) cells).1,
        (wrapCells columns (column + lead.width) cells).2) := by
  rw [span, List.cons_append, wrapCells_lead h]
  simp only [wrapCells_replicate (rfl : lead.fragmentOf.fragment = true), List.cons_append]

theorem wrapCells_flatten (columns column : Nat) (cells : List Cell) :
    (wrapCells columns column cells).1 ++ (wrapCells columns column cells).2.flatten = cells := by
  induction cells generalizing column with
  | nil => rfl
  | cons cell cells ih =>
    rw [wrapCells]
    split
    · rw [List.cons_append, ih]
    · split
      · rw [List.nil_append, List.flatten_cons, List.cons_append, ih]
      · rw [List.cons_append, ih]

theorem wrapCells_flatMap_span {leads : List Cell} (h : ∀ lead ∈ leads, lead.IsLead) :
    wrapCells columns column (leads.flatMap span)
      =
    ((wrapCells columns column leads).1.flatMap span,
      (wrapCells columns column leads).2.map (·.flatMap span)) := by
  induction leads generalizing column with
  | nil => rfl
  | cons lead leads ih =>
    rw [List.forall_mem_cons] at h
    rw [List.flatMap_cons, wrapCells_span h.1.1, wrapCells_lead h.1.1]
    split
    · rw [ih h.2]
      rfl
    · rw [ih h.2]
      rfl

theorem wrapChars_marks (marks : List Char) (chars : List (Char × Style)) :
    StyledLine.wrapChars columns column (marks.map (·, Style.combining) ++ chars)
      =
    (marks.map (·, Style.combining) ++ (StyledLine.wrapChars columns column chars).1,
      (StyledLine.wrapChars columns column chars).2) := by
  induction marks with
  | nil => rfl
  | cons mark marks ih =>
    have hwidth : Style.combining.columns.toNat = 0 := rfl
    rw [List.map_cons, List.cons_append, StyledLine.wrapChars, hwidth, if_neg (by simp),
      Nat.add_zero, ih]
    rfl

theorem wrapChars_flatMap_styled {leads : List Cell} (h : ∀ lead ∈ leads, lead.IsLead) :
    StyledLine.wrapChars columns column (leads.flatMap Cell.styled)
      =
    ((wrapCells columns column leads).1.flatMap Cell.styled,
      (wrapCells columns column leads).2.map (·.flatMap Cell.styled)) := by
  induction leads generalizing column with
  | nil => rfl
  | cons lead leads ih =>
    rw [List.forall_mem_cons] at h
    have hpos := h.1.width_pos
    rw [List.flatMap_cons, wrapCells_lead h.1.1, Cell.styled, List.cons_append, StyledLine.wrapChars,
      ← h.1.width_eq]
    simp only [hpos, true_and, wrapChars_marks, ih h.2]
    split
    · simp [Cell.styled]
    · simp [Cell.styled]

theorem styled_ofLeads {leads : List Cell} (h : ∀ lead ∈ leads, lead.IsLead) (softWrapped : Bool) :
    Row.styled { cells := leads.flatMap span, softWrapped }
      =
    { chars := leads.flatMap Cell.styled, softWrapped } := by
  rw [Row.styled]
  exact congrArg (fun leads => StyledLine.mk (leads.flatMap Cell.styled) softWrapped)
    (leads_ofLeads h softWrapped)

theorem map_styled_ofPieces (softWrapped : Bool) {leads : List Cell} {later : List (List Cell)}
    (hleads : ∀ lead ∈ leads, lead.IsLead) (hlater : ∀ leads ∈ later, ∀ lead ∈ leads, lead.IsLead) :
    (ofPieces softWrapped (leads.flatMap span) (later.map (·.flatMap span))).map Row.styled
      =
    StyledLine.ofPieces softWrapped (leads.flatMap Cell.styled) (later.map (·.flatMap Cell.styled)) := by
  induction later generalizing leads with
  | nil =>
    rw [List.map_nil, List.map_nil, ofPieces, StyledLine.ofPieces, List.map_singleton,
      styled_ofLeads hleads]
  | cons next later ih =>
    rw [List.forall_mem_cons] at hlater
    rw [List.map_cons, List.map_cons, ofPieces, StyledLine.ofPieces, List.map_cons,
      ih hlater.1 hlater.2, styled_ofLeads hleads]

theorem wellFormed_ofPieces (softWrapped : Bool) {leads : List Cell} {later : List (List Cell)}
    (hleads : ∀ lead ∈ leads, lead.IsLead) (hlater : ∀ leads ∈ later, ∀ lead ∈ leads, lead.IsLead) :
    ∀ row ∈ ofPieces softWrapped (leads.flatMap span) (later.map (·.flatMap span)),
      row.WellFormed := by
  induction later generalizing leads with
  | nil =>
    rw [List.map_nil, ofPieces, List.forall_mem_singleton]
    exact wellFormed_ofLeads hleads softWrapped
  | cons next later ih =>
    rw [List.forall_mem_cons] at hlater
    rw [List.map_cons, ofPieces, List.forall_mem_cons]
    exact ⟨wellFormed_ofLeads hleads true, ih hlater.1 hlater.2⟩

theorem forall_mem_wrapCells (columns column : Nat) {p : Cell → Prop} {cells : List Cell}
    (h : ∀ cell ∈ cells, p cell) :
    (∀ cell ∈ (wrapCells columns column cells).1, p cell)
      ∧ ∀ piece ∈ (wrapCells columns column cells).2, ∀ cell ∈ piece, p cell := by
  rw [← wrapCells_flatten columns column cells] at h
  refine ⟨fun cell hcell => h cell (List.mem_append_left _ hcell), ?_⟩
  intro piece hpiece cell hcell
  exact h cell (List.mem_append_right _ (List.mem_flatten_of_mem hpiece hcell))

namespace WellFormed

variable {row : Row}

theorem wrap_eq (h : row.WellFormed) (columns : Nat) :
    row.wrap columns
      =
    ofPieces row.softWrapped ((wrapCells (max columns 1) 0 row.leads).1.flatMap span)
      ((wrapCells (max columns 1) 0 row.leads).2.map (·.flatMap span)) := by
  rw [wrap, h.cells_eq, wrapCells_flatMap_span h.isLead]

theorem wrap (h : row.WellFormed) (columns : Nat) : ∀ piece ∈ row.wrap columns, piece.WellFormed := by
  have hleads := forall_mem_wrapCells (max columns 1) 0 h.isLead
  rw [h.wrap_eq]
  exact wellFormed_ofPieces _ hleads.1 hleads.2

theorem styled_wrap (h : row.WellFormed) (columns : Nat) :
    (row.wrap columns).map Row.styled = row.styled.wrap columns := by
  have hleads := forall_mem_wrapCells (max columns 1) 0 h.isLead
  -- Cells and text are both split where their lead cells are.
  rw [h.wrap_eq, map_styled_ofPieces _ hleads.1 hleads.2, StyledLine.wrap, Row.styled,
    wrapChars_flatMap_styled h.isLead]

end WellFormed

end Row

end Scrollback
