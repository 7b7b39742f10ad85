import Scrollback.Archive.Read
import Scrollback.Proofs.Row.Styled
import Scrollback.Proofs.Text.Encoding

/-!
This module contains the text of rows that characters are appended to, and the text that the bytes of
a frozen row stand for. Neither depends on how the characters are drawn.
-/

namespace Scrollback

namespace Text

theorem utf8_of_fromUTF8? {bytes : ByteArray} {text : String}
    (h : String.fromUTF8? bytes = some text) : bytes.data.toList = utf8 text.toList := by
  unfold String.fromUTF8? at h
  split at h
  · rw [Option.some.injEq] at h
    rw [← toList_toUTF8, ← h]
    rfl
  · contradiction

end Text

namespace Row

variable {row : Row} {char : Char}

def textOf (cells : List Cell) : List Char :=
  cells.flatMap fun cell => if cell.fragment then [] else cell.chars

theorem textOf_append (cells cells' : List Cell) :
    textOf (cells ++ cells') = textOf cells ++ textOf cells' :=
  List.flatMap_append

theorem textOf_cons (cell : Cell) (cells : List Cell) :
    textOf (cell :: cells) = (if cell.fragment then [] else cell.chars) ++ textOf cells :=
  List.flatMap_cons

theorem textOf_eq_nil {cells : List Cell} (h : ∀ cell ∈ cells, cell.fragment = true) :
    textOf cells = [] := by
  rw [textOf, List.flatMap_eq_nil_iff]
  intro cell hcell
  rw [if_pos (h cell hcell)]

theorem textOf_markLast? {cells after : List Cell} (h : markLast? char cells = some after) :
    textOf after = textOf cells ++ [char] := by
  induction cells generalizing after with
  | nil => simp [markLast?] at h
  | cons cell cells ih =>
    rw [markLast?] at h
    split at h
    · next marked hmarked =>
      rw [Option.some.injEq] at h
      rw [← h, textOf_cons, textOf_cons, ih hmarked, List.append_assoc]
    · next hnone =>
      -- The cells after the glyph that is marked are fragments.
      have htail := textOf_eq_nil (markLast?_eq_none.mp hnone)
      split at h
      · contradiction
      · next hlead =>
        rw [Option.some.injEq] at h
        rw [← h, textOf_cons, textOf_cons, htail]
        simp [Cell.addMark, Cell.chars, Cell.markList, hlead]

theorem text_pushMark (row : Row) (char : Char) (style : Style) :
    (row.pushMark char style).text = row.text ++ [char] := by
  unfold pushMark
  split
  · next hmarked => exact textOf_markLast? hmarked
  · exact textOf_append _ _

theorem text_pushGlyph (row : Row) (char : Char) (style : Style) :
    (row.pushGlyph char style).text = row.text ++ [char] := by
  unfold pushGlyph
  split
  · exact text_pushMark row char style
  · have hglyph : textOf (Cell.glyph char style) = [char] := by
      rw [Cell.glyph, textOf_cons, textOf_eq_nil]
      · rfl
      · intro cell hcell
        rw [List.eq_of_mem_replicate hcell]
        rfl
    exact (textOf_append _ _).trans (congrArg (row.text ++ ·) hglyph)

end Row

namespace Archive

theorem utf8_of_rowText? {bytes : ByteArray} {softWrapped : Bool} {chars : List Char}
    (h : rowText? bytes softWrapped = some chars) :
    bytes.data.toList = Text.utf8 (if softWrapped then chars else chars ++ ['\n']) := by
  unfold rowText? at h
  split at h
  · next hsoft =>
    obtain ⟨text, htext, rfl⟩ := Option.map_eq_some_iff.mp h
    rw [if_pos hsoft]
    exact Text.utf8_of_fromUTF8? htext
  · next hsoft =>
    split at h
    · next hlast =>
      obtain ⟨text, htext, rfl⟩ := Option.map_eq_some_iff.mp h
      obtain ⟨hlt, hbyte⟩ := getElem?_eq_some_iff.mp hlast
      have hlength : bytes.data.toList.length = bytes.size - 1 + 1 := by
        rw [Array.length_toList, ByteArray.size_data]
        omega
      rw [if_neg hsoft, Text.utf8_append, ← Text.utf8_of_fromUTF8? htext, ByteArray.data_extract,
        Array.toList_extract, show Text.utf8 ['\n'] = [10] by decide, ← hbyte,
        ByteArray.getElem_eq_getElem_data, ← Array.getElem_toList]
      simp only [List.extract_eq_take_drop, List.drop_zero, Nat.sub_zero]
      rw [List.take_append_getElem, ← hlength, List.take_length]
    · contradiction

end Archive

end Scrollback
