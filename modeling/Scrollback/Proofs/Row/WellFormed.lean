import Scrollback.Proofs.Pieces
import Scrollback.Row.Basic

/-!
This module contains the rows that are made of complete glyphs, and the normal form that every row
takes when its glyphs are pushed again one after the other.
-/

namespace Scrollback

namespace Cell

def span (lead : Cell) : List Cell :=
  lead :: List.replicate (lead.style.columns.toNat - 1) lead.fragmentOf

/--
Whether a cell begins a glyph that has columns, and was given a list of marks only to put one in.
-/
def IsLead (cell : Cell) : Prop :=
  cell.fragment = false ∧ cell.style.columns ≠ 0 ∧ cell.marks ≠ some []

instance (cell : Cell) : Decidable cell.IsLead :=
  inferInstanceAs (Decidable (_ ∧ _ ∧ _))

theorem span_lead (char : Char) (style : Style) : (lead char style).span = glyph char style := by
  rfl

theorem isLead_lead (char : Char) (style : Style) (h : style.columns ≠ 0) :
    (lead char style).IsLead :=
  ⟨rfl, h, nofun⟩

theorem IsLead.addMark {cell : Cell} (h : cell.IsLead) (char : Char) : (cell.addMark char).IsLead :=
  ⟨h.1, h.2.1, by simp [Cell.addMark]⟩

theorem length_span {cell : Cell} (h : cell.IsLead) : cell.span.length = cell.width := by
  have : cell.style.columns.toNat ≠ 0 := by
    intro hcolumns
    exact h.2.1 (UInt8.toNat_inj.mp hcolumns)
  simp only [span, List.length_cons, List.length_replicate, width, h.1, Bool.false_eq_true,
    ↓reduceIte]
  omega

theorem filter_span {cell : Cell} (h : cell.fragment = false) :
    cell.span.filter (!·.fragment) = [cell] := by
  simp [span, h, fragmentOf]

theorem foldl_addMark_lead (cell : Cell) (marks : List Char) :
    marks.foldl addMark cell
      =
    { cell with marks := if marks = [] then cell.marks else some (cell.markList ++ marks) } := by
  induction marks generalizing cell with
  | nil => rfl
  | cons mark marks ih =>
    rw [List.foldl_cons, ih]
    simp only [addMark, markList, Option.getD_some, List.append_assoc, List.cons_append,
      List.nil_append, List.cons_ne_nil, ↓reduceIte]
    split
    · next h => simp [h]
    · rfl

theorem foldl_addMark_markList {cell : Cell} (h : cell.IsLead) :
    cell.markList.foldl addMark (lead cell.char cell.style) = cell := by
  rw [foldl_addMark_lead]
  obtain ⟨char, style, fragment, marks⟩ := cell
  obtain ⟨rfl, -, hmarks⟩ := h
  cases marks with
  | none => rfl
  | some marks =>
    have : marks ≠ [] := by simpa using hmarks
    simp [markList, lead, this]

end Cell

namespace Row

def leads (row : Row) : List Cell :=
  row.cells.filter (!·.fragment)

/--
Every lead cell has columns and is followed by exactly the fragments that fill them, there are no
other fragments, and no glyph has an empty list of marks.
-/
structure WellFormed (row : Row) : Prop where
  cells_eq : row.cells = row.leads.flatMap Cell.span
  isLead : ∀ lead ∈ row.leads, lead.IsLead

instance (row : Row) : Decidable row.WellFormed :=
  decidable_of_iff (row.cells = row.leads.flatMap Cell.span ∧ ∀ lead ∈ row.leads, lead.IsLead)
    ⟨fun h => ⟨h.1, h.2⟩, fun h => ⟨h.1, h.2⟩⟩

def FlagsDefined (row : Row) : Prop :=
  ∀ lead ∈ row.leads, lead.style.FlagsDefined

instance (row : Row) : Decidable row.FlagsDefined :=
  inferInstanceAs (Decidable (∀ _ ∈ _, _))

theorem filter_flatMap_span {leads : List Cell} (h : ∀ lead ∈ leads, lead.IsLead) :
    (leads.flatMap Cell.span).filter (!·.fragment) = leads := by
  induction leads with
  | nil => rfl
  | cons lead leads ih =>
    rw [List.forall_mem_cons] at h
    rw [List.flatMap_cons, List.filter_append, Cell.filter_span h.1.1, ih h.2]
    rfl

theorem wellFormed_of_span {row : Row} (leads : List Cell) (hleads : ∀ lead ∈ leads, lead.IsLead)
    (hcells : row.cells = leads.flatMap Cell.span) : row.leads = leads ∧ row.WellFormed := by
  have h : row.leads = leads := by
    rw [Row.leads, hcells, filter_flatMap_span hleads]
  refine ⟨h, ?_, ?_⟩
  · rw [h, hcells]
  · rwa [h]

theorem wellFormed_empty : empty.WellFormed :=
  (wellFormed_of_span [] (by simp) rfl).2

theorem markLast?_append (char : Char) (cells cells' : List Cell) :
    markLast? char (cells ++ cells')
      =
    ((markLast? char cells').map (cells ++ ·)).or ((markLast? char cells).map (· ++ cells')) := by
  induction cells with
  | nil =>
    simp [markLast?]
  | cons cell cells ih =>
    rw [List.cons_append, markLast?, ih, markLast?]
    cases markLast? char cells' with
    | some _ => rfl
    | none =>
      cases markLast? char cells with
      | some _ => rfl
      | none => cases cell.fragment <;> rfl

theorem markLast?_replicate (char : Char) {cell : Cell} (h : cell.fragment = true) (count : Nat) :
    markLast? char (List.replicate count cell) = none := by
  induction count with
  | zero => rfl
  | succ count ih => simp [List.replicate_succ, markLast?, ih, h]

theorem markLast?_span (char : Char) {lead : Cell} (h : lead.fragment = false) :
    markLast? char lead.span = some (lead.addMark char).span := by
  rw [Cell.span, markLast?, markLast?_replicate char rfl]
  simp [h, Cell.span, Cell.addMark, Cell.fragmentOf]

theorem markLast?_flatMap_span (char : Char) (leads : List Cell) {lead : Cell}
    (h : lead.fragment = false) :
    markLast? char ((leads ++ [lead]).flatMap Cell.span)
      =
    some ((leads ++ [lead.addMark char]).flatMap Cell.span) := by
  simp [List.flatMap_append, markLast?_append, markLast?_span char h]

theorem markLast?_eq_none {char : Char} {cells : List Cell} :
    markLast? char cells = none ↔ ∀ cell ∈ cells, cell.fragment = true := by
  induction cells with
  | nil => simp [markLast?]
  | cons cell cells ih =>
    rw [markLast?, List.forall_mem_cons, ← ih]
    cases markLast? char cells <;> simp

theorem pushMark_eq_of_mem {row : Row} {lead : Cell} (hmem : lead ∈ row.cells)
    (hlead : lead.fragment = false) (char : Char) (style style' : Style) :
    row.pushMark char style = row.pushMark char style' := by
  -- The style decides on the new glyph if there is none to put the mark on. Otherwise it does not
  -- matter.
  unfold pushMark
  cases h : markLast? char row.cells with
  | some _ => rfl
  | none =>
    have := markLast?_eq_none.mp h lead hmem
    simp [hlead] at this

theorem softWrapped_pushMark (row : Row) (char : Char) (style : Style) :
    (row.pushMark char style).softWrapped = row.softWrapped := by
  unfold pushMark
  split <;> rfl

theorem softWrapped_pushGlyph (row : Row) (char : Char) (style : Style) :
    (row.pushGlyph char style).softWrapped = row.softWrapped := by
  unfold pushGlyph
  split
  · apply softWrapped_pushMark
  · rfl

def ofLeads (softWrapped : Bool) (leads : List Cell) : Row where
  cells := leads.flatMap Cell.span
  softWrapped := softWrapped

theorem WellFormed.eq_ofLeads {row : Row} (h : row.WellFormed) :
    row = ofLeads row.softWrapped row.leads := by
  obtain ⟨_, _⟩ := row
  exact congrArg (Row.mk · _) h.cells_eq

theorem wellFormed_ofLeads {leads : List Cell} (h : ∀ lead ∈ leads, lead.IsLead)
    (softWrapped : Bool) : (ofLeads softWrapped leads).WellFormed :=
  (wellFormed_of_span _ h rfl).2

theorem leads_ofLeads {leads : List Cell} (h : ∀ lead ∈ leads, lead.IsLead) (softWrapped : Bool) :
    (ofLeads softWrapped leads).leads = leads :=
  (wellFormed_of_span _ h rfl).1

theorem pushMark_ofLeads (softWrapped : Bool) (leads : List Cell) {lead : Cell} (h : lead.IsLead)
    (char : Char) (style : Style) :
    (ofLeads softWrapped (leads ++ [lead])).pushMark char style
      =
    ofLeads softWrapped (leads ++ [lead.addMark char]) := by
  simp only [pushMark, ofLeads, markLast?_flatMap_span char leads h.1]

theorem pushMark_ofLeads_nil (softWrapped : Bool) (char : Char) (style : Style) :
    (ofLeads softWrapped []).pushMark char style
      =
    ofLeads softWrapped [Cell.lead char (style.withColumns 1)] := by
  rfl

theorem pushGlyph_ofLeads (softWrapped : Bool) (leads : List Cell) (char : Char) {style : Style}
    (h : style.columns ≠ 0) :
    (ofLeads softWrapped leads).pushGlyph char style
      =
    ofLeads softWrapped (leads ++ [Cell.lead char style]) := by
  simp [pushGlyph, h, ofLeads, Cell.span_lead]

theorem WellFormed.pushMark {row : Row} (h : row.WellFormed) (char : Char) (style : Style) :
    (row.pushMark char style).WellFormed := by
  have hleads := h.isLead
  rw [h.eq_ofLeads]
  -- A mark without a glyph before it becomes a glyph of one column.
  rcases List.eq_nil_or_concat row.leads with hnil | ⟨leads, lead, hconcat⟩
  · rw [hnil, pushMark_ofLeads_nil]
    apply wellFormed_ofLeads
    simpa using Cell.isLead_lead char (style.withColumns 1) (by decide : (1 : UInt8) ≠ 0)
  · rw [hconcat, List.concat_eq_append] at hleads ⊢
    rw [List.forall_mem_append, List.forall_mem_singleton] at hleads
    rw [pushMark_ofLeads _ _ hleads.2]
    apply wellFormed_ofLeads
    rw [List.forall_mem_append, List.forall_mem_singleton]
    exact ⟨hleads.1, hleads.2.addMark char⟩

theorem WellFormed.pushGlyph {row : Row} (h : row.WellFormed) (char : Char) (style : Style) :
    (row.pushGlyph char style).WellFormed := by
  by_cases hcolumns : style.columns = 0
  · rw [Row.pushGlyph, if_pos hcolumns]
    exact h.pushMark char style
  · rw [h.eq_ofLeads, pushGlyph_ofLeads _ _ _ hcolumns]
    apply wellFormed_ofLeads
    rw [List.forall_mem_append, List.forall_mem_singleton]
    exact ⟨h.isLead, Cell.isLead_lead char style hcolumns⟩

/--
Push the glyph that a cell begins, and put each of its marks on the last glyph. A fragment adds
nothing.
-/
def pushCell (row : Row) (cell : Cell) : Row :=
  if cell.fragment then
    row
  else
    cell.markList.foldl (·.pushMark · cell.style) (row.pushGlyph cell.char cell.style)

def normalize (row : Row) : Row :=
  row.cells.foldl pushCell { softWrapped := row.softWrapped }

theorem foldl_pushCell_filter (row : Row) (cells : List Cell) :
    (cells.filter (!·.fragment)).foldl pushCell row = cells.foldl pushCell row := by
  apply foldl_filter_of_forall
  intro row cell hcell
  rw [pushCell, if_pos (by simpa using hcell)]

theorem WellFormed.pushCell {row : Row} (h : row.WellFormed) (cell : Cell) :
    (row.pushCell cell).WellFormed := by
  unfold Row.pushCell
  split
  · exact h
  · apply List.foldlRecOn
    · exact h.pushGlyph cell.char cell.style
    · intro row hrow mark _
      exact hrow.pushMark mark cell.style

theorem wellFormed_normalize (row : Row) : row.normalize.WellFormed := by
  unfold normalize
  apply List.foldlRecOn
  · exact (wellFormed_of_span [] (by simp) rfl).2
  · intro row hrow cell _
    exact hrow.pushCell cell

theorem foldl_pushMark_ofLeads (softWrapped : Bool) (leads : List Cell) {lead : Cell}
    (h : lead.IsLead) (marks : List Char) (style : Style) :
    marks.foldl (·.pushMark · style) (ofLeads softWrapped (leads ++ [lead]))
      =
    ofLeads softWrapped (leads ++ [marks.foldl Cell.addMark lead]) := by
  induction marks generalizing lead with
  | nil => rfl
  | cons mark marks ih =>
    rw [List.foldl_cons, pushMark_ofLeads _ _ h, ih (h.addMark mark)]
    rfl

theorem pushCell_ofLeads (softWrapped : Bool) (leads : List Cell) {lead : Cell} (h : lead.IsLead) :
    (ofLeads softWrapped leads).pushCell lead = ofLeads softWrapped (leads ++ [lead]) := by
  have hlead := Cell.isLead_lead lead.char lead.style h.2.1
  simp only [pushCell, h.1, Bool.false_eq_true, ↓reduceIte]
  rw [pushGlyph_ofLeads _ _ _ h.2.1]
  rw [foldl_pushMark_ofLeads _ _ hlead]
  rw [Cell.foldl_addMark_markList h]

theorem foldl_pushCell_ofLeads (softWrapped : Bool) (before : List Cell) {leads : List Cell}
    (h : ∀ lead ∈ leads, lead.IsLead) :
    leads.foldl pushCell (ofLeads softWrapped before) = ofLeads softWrapped (before ++ leads) := by
  induction leads generalizing before with
  | nil => simp
  | cons lead leads ih =>
    rw [List.forall_mem_cons] at h
    rw [List.foldl_cons, pushCell_ofLeads _ _ h.1, ih _ h.2]
    simp

theorem WellFormed.normalize_eq {row : Row} (h : row.WellFormed) : row.normalize = row := by
  calc row.normalize
    _ = row.leads.foldl Row.pushCell (ofLeads row.softWrapped []) := by
      rw [normalize, ← foldl_pushCell_filter]
      rfl
    _ = ofLeads row.softWrapped row.leads := by
      rw [foldl_pushCell_ofLeads _ _ h.isLead]
      rfl
    _ = row := h.eq_ofLeads.symm

theorem normalize_normalize (row : Row) : row.normalize.normalize = row.normalize :=
  (wellFormed_normalize row).normalize_eq

end Row

end Scrollback
