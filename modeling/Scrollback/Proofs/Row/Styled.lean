import Scrollback.Proofs.Row.WellFormed

/-!
This module contains the text that a frozen row is stored as, with the style that each character is
stored in.
-/

namespace Scrollback

structure StyledLine where
  chars : List (Char × Style)
  softWrapped : Bool
  deriving DecidableEq

namespace StyledLine

def text (line : StyledLine) : List Char :=
  line.chars.map (·.1) ++ if line.softWrapped then [] else ['\n']

def toRow (line : StyledLine) : Row :=
  line.chars.foldl (fun row char => row.pushGlyph char.1 char.2) { softWrapped := line.softWrapped }

def FlagsDefined (line : StyledLine) : Prop :=
  ∀ char ∈ line.chars, char.2.FlagsDefined

end StyledLine

namespace Cell

/--
The characters that a glyph is stored as. The marks have the combining style.
-/
def styled (cell : Cell) : List (Char × Style) :=
  (cell.char, cell.style) :: cell.markList.map (·, Style.combining)

end Cell

namespace Row

def styled (row : Row) : StyledLine where
  chars := row.leads.flatMap Cell.styled
  softWrapped := row.softWrapped

theorem pushGlyph_combining (row : Row) (mark : Char) :
    row.pushGlyph mark Style.combining = row.pushMark mark Style.combining := by
  rfl

theorem exists_lead_markLast? {char : Char} {cells after : List Cell}
    (h : markLast? char cells = some after) : ∃ lead ∈ after, lead.fragment = false := by
  induction cells generalizing after with
  | nil => simp [markLast?] at h
  | cons cell cells ih =>
    rw [markLast?] at h
    split at h
    · next rest hrest =>
      obtain ⟨lead, hmem, hlead⟩ := ih hrest
      injection h with h
      exact ⟨lead, h ▸ List.mem_cons_of_mem cell hmem, hlead⟩
    · split at h
      · contradiction
      · next hcell =>
        injection h with h
        exact ⟨_, h ▸ List.mem_cons_self, by simpa [Cell.addMark] using hcell⟩

theorem exists_lead_pushMark (row : Row) (char : Char) (style : Style) :
    ∃ lead ∈ (row.pushMark char style).cells, lead.fragment = false := by
  unfold pushMark
  split
  · next h => exact exists_lead_markLast? h
  · exact ⟨_, List.mem_append_right _ List.mem_cons_self, rfl⟩

theorem exists_lead_pushGlyph (row : Row) (char : Char) (style : Style) :
    ∃ lead ∈ (row.pushGlyph char style).cells, lead.fragment = false := by
  unfold pushGlyph
  split
  · exact exists_lead_pushMark row char style
  · exact ⟨_, List.mem_append_right _ List.mem_cons_self, rfl⟩

theorem foldl_pushMark_eq {row : Row} (h : ∃ lead ∈ row.cells, lead.fragment = false)
    (marks : List Char) (style style' : Style) :
    marks.foldl (·.pushMark · style) row = marks.foldl (·.pushMark · style') row := by
  induction marks generalizing row with
  | nil => rfl
  | cons mark marks ih =>
    obtain ⟨lead, hmem, hlead⟩ := h
    rw [List.foldl_cons, List.foldl_cons]
    rw [pushMark_eq_of_mem hmem hlead mark style style']
    exact ih (exists_lead_pushMark row mark style')

theorem foldl_pushGlyph_styled (row : Row) {cell : Cell} (h : cell.fragment = false) :
    cell.styled.foldl (fun row char => row.pushGlyph char.1 char.2) row = row.pushCell cell := by
  -- Reading back the characters of a glyph is pushing it again: the combining style makes its marks
  -- go to the last glyph.
  simp only [Cell.styled, List.foldl_cons, List.foldl_map, pushGlyph_combining, pushCell, h,
    Bool.false_eq_true, ↓reduceIte]
  exact foldl_pushMark_eq (exists_lead_pushGlyph row cell.char cell.style) _ _ _

theorem toRow_styled (row : Row) : row.styled.toRow = row.normalize := by
  have hleads : ∀ lead ∈ row.leads, lead.fragment = false := by
    simp [leads]
  simp only [StyledLine.toRow, styled, normalize, ← foldl_pushCell_filter _ row.cells]
  change _ = row.leads.foldl pushCell _
  generalize row.leads = leads at hleads
  generalize ({ softWrapped := row.softWrapped } : Row) = start
  induction leads generalizing start with
  | nil => rfl
  | cons lead leads ih =>
    rw [List.forall_mem_cons] at hleads
    rw [List.flatMap_cons, List.foldl_append, List.foldl_cons]
    rw [foldl_pushGlyph_styled _ hleads.1]
    exact ih hleads.2 _

theorem WellFormed.toRow_styled {row : Row} (h : row.WellFormed) : row.styled.toRow = row := by
  rw [Row.toRow_styled, h.normalize_eq]

theorem FlagsDefined.styled {row : Row} (h : row.FlagsDefined) : row.styled.FlagsDefined := by
  intro char hchar
  simp only [Row.styled, List.mem_flatMap] at hchar
  obtain ⟨lead, hlead, hchar⟩ := hchar
  simp only [Cell.styled, List.mem_cons, List.mem_map] at hchar
  rcases hchar with rfl | ⟨mark, _, rfl⟩
  · exact h lead hlead
  · exact (by decide : Style.combining.FlagsDefined)

theorem styles_markLast? {char : Char} {cells after : List Cell}
    (h : markLast? char cells = some after) :
    after.map (fun cell => (cell.fragment, cell.style))
      =
    cells.map (fun cell => (cell.fragment, cell.style)) := by
  induction cells generalizing after with
  | nil => simp [markLast?] at h
  | cons cell cells ih =>
    rw [markLast?] at h
    split at h
    · next rest hrest =>
      injection h with h
      rw [← h, List.map_cons, List.map_cons, ih hrest]
    · split at h
      · contradiction
      · injection h with h
        rw [← h]
        rfl

theorem flagsDefined_iff {row : Row} :
    row.FlagsDefined
      ↔
    ∀ style ∈ row.cells.map (fun cell => (cell.fragment, cell.style)),
      style.1 = false → style.2.FlagsDefined := by
  simp [FlagsDefined, leads]

theorem FlagsDefined.pushMark {row : Row} (h : row.FlagsDefined) (char : Char) {style : Style}
    (hstyle : style.FlagsDefined) : (row.pushMark char style).FlagsDefined := by
  rw [flagsDefined_iff] at *
  unfold Row.pushMark
  split
  · next hmark =>
    rw [styles_markLast? hmark]
    exact h
  · simp only [Row.push, List.map_append, List.forall_mem_append]
    refine ⟨h, ?_⟩
    intro _ hmem
    rw [List.map_singleton, List.mem_singleton] at hmem
    rw [hmem]
    exact fun _ => hstyle

theorem FlagsDefined.pushGlyph {row : Row} (h : row.FlagsDefined) (char : Char) {style : Style}
    (hstyle : style.FlagsDefined) : (row.pushGlyph char style).FlagsDefined := by
  unfold Row.pushGlyph
  split
  · exact h.pushMark char hstyle
  · rw [flagsDefined_iff] at *
    simp only [List.map_append, List.forall_mem_append]
    refine ⟨h, ?_⟩
    simp only [Cell.glyph, List.map_cons, List.forall_mem_cons, List.map_replicate]
    refine ⟨fun _ => hstyle, ?_⟩
    intro style hmem
    rw [List.eq_of_mem_replicate hmem]
    simp [Cell.fragmentOf]

end Row

theorem StyledLine.softWrapped_toRow (line : StyledLine) :
    line.toRow.softWrapped = line.softWrapped := by
  unfold StyledLine.toRow
  apply List.foldlRecOn (motive := fun row : Row => row.softWrapped = line.softWrapped)
  · rfl
  · intro row hrow char _
    rw [Row.softWrapped_pushGlyph, hrow]

theorem StyledLine.FlagsDefined.toRow {line : StyledLine} (h : line.FlagsDefined) :
    line.toRow.FlagsDefined := by
  unfold StyledLine.toRow
  apply List.foldlRecOn
  · simp [Row.FlagsDefined, Row.leads]
  · intro row hrow char hchar
    exact hrow.pushGlyph char.1 (h char hchar)

end Scrollback
