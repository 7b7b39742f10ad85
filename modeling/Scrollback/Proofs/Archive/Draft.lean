import Scrollback.Archive.Draft
import Scrollback.Proofs.Archive.Runs
import Scrollback.Proofs.Row.Styled

/-!
This module contains the meaning of a draft: its changes of style, after those in the attribute log,
give each character of the row the style that the row has for it.
-/

namespace Scrollback

namespace Draft

/--
The draft holds the characters `chars` of a row whose text starts at offset `start` of the text log.
Before the row, the archive has the given changes and open run over the text from `low` on.
-/
structure Follows (low start : Nat) (changes : List StyleChange) (run : OpenRun)
    (chars : List (Char × Style)) (draft : Draft) : Prop where
  text_eq : draft.text.toList = chars.map (·.1)
  runs : Runs low (changes ++ draft.changes) draft.run (start + styledSize chars)
  styled : StyledBy (styleAt (changes ++ draft.changes) draft.run) start chars
  earlier : ∀ offset, low ≤ offset → offset < start →
    styleAt (changes ++ draft.changes) draft.run offset = styleAt changes run offset
  leading_none : draft.leading = none → chars = []
  leading_some : ∀ count ∈ draft.leading, count ≤ draft.changes.length
    ∧ ∀ change ∈ draft.changes.take count, change.textEnd.toNat ≤ start

variable {low start : Nat} {changes : List StyleChange} {run : OpenRun} {chars : List (Char × Style)}
  {draft : Draft}

theorem follows_start (h : Runs low changes run start) : Follows low start changes run [] { run } := by
  constructor
  · rfl
  · simpa using h
  · trivial
  · simp
  · intro _
    rfl
  · simp

theorem utf8ByteSize_text (htext : draft.text.toList = chars.map (·.1)) :
    draft.text.utf8ByteSize = styledSize chars := by
  rw [Text.utf8ByteSize_eq, htext, styledSize]

theorem Follows.forall_take_leading (h : Follows low start changes run chars draft) :
    draft.leading.getD draft.changes.length ≤ draft.changes.length
      ∧ ∀ change ∈ draft.changes.take (draft.leading.getD draft.changes.length),
        change.textEnd.toNat ≤ start := by
  cases hleading : draft.leading with
  | some count => exact h.leading_some count hleading
  | none =>
    -- Without a glyph, all changes so far are about text before the row.
    refine ⟨Nat.le_refl _, ?_⟩
    intro change hchange
    have hhigh := h.runs.start_le_high
    have hend := h.runs.textEnd_le_start (List.mem_append_right _ (List.mem_of_mem_take hchange))
    rw [h.leading_none hleading, styledSize_nil] at hhigh
    omega

theorem Follows.switch (h : Follows low start changes run chars draft) (hlow : low ≤ start)
    {style : Style} (hstyle : style.FlagsDefined) (hrange : start + styledSize chars < 2 ^ 64) :
    Follows low start changes run chars (draft.switch start style) := by
  have hsize := utf8ByteSize_text h.text_eq
  unfold Draft.switch
  rw [hsize]
  constructor
  · exact h.text_eq
  · rw [← List.append_assoc]
    exact h.runs.switch hstyle hrange
  · rw [← List.append_assoc]
    apply h.styled.congr
    intro place hle hlt
    exact h.runs.styleAt_switch style hrange (by omega) hlt
  · intro offset hle hlt
    rw [← List.append_assoc, ← h.earlier offset hle hlt]
    exact h.runs.styleAt_switch style hrange hle (by omega)
  · exact h.leading_none
  · intro count hcount
    have ⟨hle, htake⟩ := h.leading_some count hcount
    dsimp only
    rw [List.take_append_of_le_length hle, List.length_append]
    exact ⟨by omega, htake⟩

theorem styledBy_extend (h : Follows low start changes run chars draft) (added : List Char) :
    StyledBy (styleAt (changes ++ draft.changes) draft.run) start
      (chars ++ added.map (·, draft.run.style)) := by
  -- Characters can be added in the style of the run at the end of the text.
  rw [styledBy_append]
  refine ⟨h.styled, ?_⟩
  have hstart := h.runs.start_le_high
  generalize start + styledSize chars = offset at hstart
  induction added generalizing offset with
  | nil => trivial
  | cons char added ih =>
    exact ⟨h.runs.styleAt_eq_open hstart, ih _ (by omega)⟩

theorem Follows.addBase (h : Follows low start changes run chars draft) (hlow : low ≤ start)
    {cell : Cell} (hstyle : cell.style.FlagsDefined) (hrange : start + styledSize chars < 2 ^ 64) :
    Follows low start changes run (chars ++ [(cell.char, cell.style)]) (draft.addBase start cell) := by
  unfold Draft.addBase
  generalize hswitched :
    (if cell.style = draft.run.style then draft else draft.switch start cell.style) = switched
  -- Whether or not the style had to be switched, the open run has the style of the cell now.
  have hrun : switched.run.style = cell.style := by
    rw [← hswitched]
    split
    · next heq => exact heq.symm
    · rfl
  replace h : Follows low start changes run chars switched := by
    rw [← hswitched]
    split
    · exact h
    · exact h.switch hlow hstyle hrange
  constructor
  · simp [h.text_eq]
  · exact h.runs.grow (by simp)
  · simpa [hrun] using styledBy_extend h [cell.char]
  · exact h.earlier
  · intro hnone
    simp at hnone
  · intro count hcount
    dsimp only at hcount
    rw [Option.orElse_eq_orElse, Option.orElse_eq_or, Option.or_some, Option.mem_def,
      Option.some.injEq] at hcount
    rw [← hcount]
    exact h.forall_take_leading

theorem Follows.addMarks (h : Follows low start changes run chars draft) (hlow : low ≤ start)
    (marks : List Char) (hleading : draft.leading ≠ none)
    (hrange : start + styledSize chars < 2 ^ 64) :
    Follows low start changes run (chars ++ marks.map (·, Style.combining))
      (draft.addMarks start marks) := by
  unfold Draft.addMarks
  split
  · next hnil =>
    rw [hnil, List.map_nil, List.append_nil]
    exact h
  · have hswitch := h.switch hlow (by decide : Style.combining.FlagsDefined) hrange
    constructor
    · simp [hswitch.text_eq, Function.comp_def]
    · exact hswitch.runs.grow (by simp)
    · exact styledBy_extend hswitch marks
    · exact hswitch.earlier
    · intro hnone
      exact absurd hnone hleading
    · exact hswitch.leading_some

theorem leading_addBase (draft : Draft) (start : Nat) (cell : Cell) :
    (draft.addBase start cell).leading ≠ none := by
  simp [Draft.addBase]

theorem Follows.addCell (h : Follows low start changes run chars draft) (hlow : low ≤ start)
    {cell : Cell} (hfragment : cell.fragment = false) (hstyle : cell.style.FlagsDefined)
    (hrange : start + styledSize (chars ++ cell.styled) < 2 ^ 64) :
    Follows low start changes run (chars ++ cell.styled) (draft.addCell start cell) := by
  unfold Cell.styled at *
  rw [List.append_cons] at *
  simp only [styledSize_append] at hrange
  simp only [Draft.addCell, hfragment, Bool.false_eq_true, ↓reduceIte]
  apply Follows.addMarks
  · exact h.addBase hlow hstyle (by omega)
  · exact hlow
  · apply leading_addBase
  · simp only [styledSize_append]
    omega

theorem foldl_addCell_filter (start : Nat) (draft : Draft) (cells : List Cell) :
    (cells.filter (!·.fragment)).foldl (fun draft cell => draft.addCell start cell) draft
      =
    cells.foldl (fun draft cell => draft.addCell start cell) draft := by
  apply foldl_filter_of_forall
  intro draft cell hcell
  rw [Draft.addCell, if_pos (by simpa using hcell)]

theorem Follows.foldl_addCell (h : Follows low start changes run chars draft) (hlow : low ≤ start)
    {leads : List Cell}
    (hleads : ∀ lead ∈ leads, lead.fragment = false ∧ lead.style.FlagsDefined)
    (hrange : start + styledSize (chars ++ leads.flatMap Cell.styled) < 2 ^ 64) :
    Follows low start changes run (chars ++ leads.flatMap Cell.styled)
      (leads.foldl (fun draft cell => draft.addCell start cell) draft) := by
  induction leads generalizing chars draft with
  | nil => simpa using h
  | cons lead leads ih =>
    rw [List.forall_mem_cons] at hleads
    rw [List.flatMap_cons, ← List.append_assoc] at *
    apply ih _ hleads.2 hrange
    apply h.addCell hlow hleads.1.1 hleads.1.2
    rw [styledSize_append] at hrange
    omega

theorem ascii_addCell (draft : Draft) (start : Nat) {cell : Cell} (h : cell.fragment = false) :
    (draft.addCell start cell).ascii = (draft.ascii && cell.isAscii) := by
  have hswitch : ∀ (draft : Draft) style, (draft.switch start style).ascii = draft.ascii := by
    intros
    rfl
  simp only [Draft.addCell, h, Bool.false_eq_true, ↓reduceIte, Draft.addMarks, Draft.addBase]
  split <;> split <;> simp [hswitch]

theorem ascii_foldl_addCell (draft : Draft) (start : Nat) {leads : List Cell}
    (h : ∀ lead ∈ leads, lead.fragment = false) :
    (leads.foldl (fun draft cell => draft.addCell start cell) draft).ascii
      =
    (draft.ascii && leads.all Cell.isAscii) := by
  induction leads generalizing draft with
  | nil => simp
  | cons lead leads ih =>
    rw [List.forall_mem_cons] at h
    rw [List.foldl_cons, ih _ h.2, ascii_addCell draft start h.1, List.all_cons, Bool.and_assoc]

theorem isPrintable_of_isAscii {cell : Cell} (h : cell.isAscii = true) :
    ∀ char ∈ cell.styled, Text.IsPrintable char.1 := by
  simp only [Cell.isAscii, Bool.and_eq_true, decide_eq_true_eq, List.isEmpty_iff] at h
  intro char hchar
  rw [Cell.styled, h.2, List.map_nil, List.mem_singleton] at hchar
  rw [hchar]
  exact h.1

theorem fragment_of_mem_leads {row : Row} : ∀ lead ∈ row.leads, lead.fragment = false := by
  simp [Row.leads]

theorem ofRow_eq (run : OpenRun) (start : Nat) (row : Row) :
    ofRow run start row
      =
    (row.leads.foldl (fun draft cell => draft.addCell start cell) ({ run } : Draft)).close
      row.softWrapped := by
  rw [ofRow, ← foldl_addCell_filter]
  rfl

theorem ascii_ofRow (run : OpenRun) (start : Nat) (row : Row) (h : (ofRow run start row).ascii = true) :
    ∀ char ∈ row.styled.chars, Text.IsPrintable char.1 := by
  have hascii : (ofRow run start row).ascii = row.leads.all Cell.isAscii := by
    rw [ofRow_eq, Draft.close]
    split <;> simp [ascii_foldl_addCell _ _ fragment_of_mem_leads]
  rw [hascii, List.all_eq_true] at h
  simp only [Row.styled, List.forall_mem_flatMap]
  intro lead hlead
  exact isPrintable_of_isAscii (h lead hlead)

theorem text_addCell (draft : Draft) (start : Nat) {cell : Cell} (h : cell.fragment = false) :
    (draft.addCell start cell).text.toList = draft.text.toList ++ cell.styled.map (·.1) := by
  have hswitch : ∀ (draft : Draft) style, (draft.switch start style).text = draft.text := by
    intros
    rfl
  simp only [Draft.addCell, h, Bool.false_eq_true, ↓reduceIte, Draft.addMarks, Draft.addBase,
    Cell.styled]
  split <;> split <;> simp_all [Function.comp_def]

theorem text_foldl_addCell (draft : Draft) (start : Nat) (leads : List Cell)
    (h : ∀ lead ∈ leads, lead.fragment = false) :
    (leads.foldl (fun draft cell => draft.addCell start cell) draft).text.toList
      =
    draft.text.toList ++ (leads.flatMap Cell.styled).map (·.1) := by
  induction leads generalizing draft with
  | nil => simp
  | cons lead leads ih =>
    rw [List.forall_mem_cons] at h
    rw [List.foldl_cons, ih _ h.2, text_addCell draft start h.1]
    simp

theorem text_ofRow (run : OpenRun) (start : Nat) (row : Row) :
    (ofRow run start row).text.toList = row.styled.text := by
  have htext := text_foldl_addCell { run } start row.leads fragment_of_mem_leads
  rw [ofRow_eq, Draft.close, StyledLine.text, Row.styled]
  split <;> simp_all

theorem exists_follows (h : Runs low changes run start) (hlow : low ≤ start) {row : Row}
    (hflags : row.FlagsDefined)
    (hrange : start + (Text.utf8 row.styled.text).length < 2 ^ 64) :
    ∃ draft : Draft, Follows low start changes run row.styled.chars draft
      ∧ ofRow run start row = draft.close row.softWrapped := by
  have hsize : styledSize row.styled.chars ≤ (Text.utf8 row.styled.text).length := by
    simp [StyledLine.text, styledSize]
  refine ⟨_, ?_, ofRow_eq run start row⟩
  have hfollows := follows_start h
  apply hfollows.foldl_addCell hlow
  · intro lead hlead
    exact ⟨fragment_of_mem_leads lead hlead, hflags lead hlead⟩
  · rw [List.nil_append]
    exact Nat.lt_of_le_of_lt (Nat.add_le_add_left hsize start) hrange

end Draft

end Scrollback
