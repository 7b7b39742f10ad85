import Scrollback.Proofs.Layout.Paragraph

/-!
This module contains the proof that a layout divides the text in the lines that its paragraphs are
split in.
-/

namespace Scrollback

theorem modify_length_append {α : Type} (l l' : List α) (a : α) (f : α → α) :
    (l ++ a :: l').modify l.length f = l ++ f a :: l' := by
  induction l with
  | nil => rfl
  | cons b l ih => rw [List.cons_append, List.length_cons, List.modify_succ_cons, ih, List.cons_append]

namespace FrozenRow

def LaidFrom (entryOf : Nat → Nat) (offset : Nat) : List FrozenRow → Prop
  | [] => True
  | row :: rows =>
    (row.entry.textStart = .ofNat offset ∧ row.entry.styleStart = .ofNat (entryOf offset)
        ∧ row.entry.softWrapped = row.line.softWrapped
        ∧ (row.entry.ascii = true → ∀ char ∈ row.line.chars, Text.IsPrintable char.1))
      ∧ LaidFrom entryOf (offset + row.bytes.length) rows

theorem laidFrom_append {entryOf : Nat → Nat} {offset : Nat} {rows rows' : List FrozenRow} :
    LaidFrom entryOf offset (rows ++ rows')
      ↔
    LaidFrom entryOf offset rows
      ∧ LaidFrom entryOf (offset + (rows.flatMap bytes).length) rows' := by
  induction rows generalizing offset with
  | nil => simp [LaidFrom]
  | cons row rows ih =>
    simp only [List.cons_append, LaidFrom, ih, List.flatMap_cons, List.length_append,
      Nat.add_assoc, and_assoc]

end FrozenRow

namespace StyledLine

theorem wrapChars_flatten (columns column : Nat) (chars : List (Char × Style)) :
    (wrapChars columns column chars).1 ++ (wrapChars columns column chars).2.flatten = chars := by
  induction chars generalizing column with
  | nil => rfl
  | cons char chars ih =>
    rw [wrapChars]
    dsimp only
    split
    · rw [List.nil_append, List.flatten_cons, List.cons_append, ih]
    · rw [List.cons_append, ih]

theorem flatMap_marked_ofPieces (softWrapped : Bool) (piece : List (Char × Style))
    (later : List (List (Char × Style))) :
    (ofPieces softWrapped piece later).flatMap marked
      =
    marked { chars := piece ++ later.flatten, softWrapped } := by
  induction later generalizing piece with
  | nil => simp [ofPieces]
  | cons next later ih =>
    rw [ofPieces, List.flatMap_cons, ih]
    simp [marked]

theorem flatMap_marked_wrap (line : StyledLine) (columns : Nat) :
    (line.wrap columns).flatMap marked = line.marked := by
  rw [wrap, flatMap_marked_ofPieces, wrapChars_flatten]

end StyledLine

theorem FrozenRow.flatMap_bytes_eq (rows : List FrozenRow) :
    rows.flatMap bytes
      =
    Text.utf8 (((rows.map (·.line)).flatMap StyledLine.marked).map (·.1)) := by
  rw [List.flatMap_map, List.map_flatMap, Text.utf8, List.flatMap_assoc]
  apply List.flatMap_congr
  intro row _
  rw [bytes, StyledLine.text_eq_map_marked, Text.utf8]

namespace Layout

variable {layout : Layout} {entryOf : Nat → Nat}

open StyledLine (wrapChars)

def openEntries (entryOf : Nat → Nat) (ascii : Bool) (offset : Nat) :
    List (List (Char × Style)) → List RowEntry
  | [] => []
  | piece :: pieces =>
    { textStart := .ofNat offset, styleStart := .ofNat (entryOf offset), softWrapped := true, ascii }
      :: openEntries entryOf ascii (offset + styledSize piece) pieces

@[simp]
theorem columns_addStyled (layout : Layout) (entryOf : Nat → Nat) (ascii : Bool) (offset : Nat)
    (chars : List (Char × Style)) :
    (layout.addStyled entryOf ascii offset chars).columns = layout.columns := by
  induction chars generalizing layout offset with
  | nil => rfl
  | cons char chars ih =>
    rw [addStyled, ih, columns_take, placeAtEnd, columns_placeBefore, openFor]
    split
    · rfl
    · rfl

theorem entries_addStyled (layout : Layout) (entryOf : Nat → Nat) (ascii : Bool) (offset : Nat)
    (chars : List (Char × Style)) :
    (layout.addStyled entryOf ascii offset chars).entries.toList
      =
    layout.entries.toList
      ++ openEntries entryOf ascii
        (offset + styledSize (wrapChars layout.columns layout.column chars).1)
        (wrapChars layout.columns layout.column chars).2 := by
  induction chars generalizing layout offset with
  | nil => simp [addStyled, wrapChars, openEntries]
  | cons char chars ih =>
    rw [addStyled, ih, wrapChars]
    simp only [entries_take, columns_take, column_take, placeAtEnd, entries_placeBefore,
      columns_placeBefore, column_placeBefore, openFor, overflows, Bool.and_eq_true,
      decide_eq_true_eq]
    split
    · simp [openRow, openEntries, Nat.add_assoc]
    · simp [Nat.add_assoc]

theorem exists_laidFrom_openEntries (entryOf : Nat → Nat) (ascii softWrapped : Bool) (offset : Nat)
    (before : List RowEntry) (piece : List (Char × Style)) (later : List (List (Char × Style)))
    (hascii : ascii = true → ∀ char ∈ piece ++ later.flatten, Text.IsPrintable char.1) :
    ∃ new : List FrozenRow,
      (before ++ openEntries entryOf ascii offset (piece :: later)).modify
          ((before ++ openEntries entryOf ascii offset (piece :: later)).length - 1)
          (fun entry => { entry with softWrapped })
        = before ++ new.map (·.entry)
      ∧ new.map (·.line) = StyledLine.ofPieces softWrapped piece later
      ∧ FrozenRow.LaidFrom entryOf offset new := by
  induction later generalizing before offset piece with
  | nil =>
    refine ⟨[⟨{ textStart := .ofNat offset, styleStart := .ofNat (entryOf offset), softWrapped, ascii },
      { chars := piece, softWrapped }⟩], ?_, rfl, ⟨rfl, rfl, rfl, ?_⟩, trivial⟩
    · rw [openEntries, openEntries, List.length_append, List.length_singleton, Nat.add_sub_cancel,
        modify_length_append]
      rfl
    · simpa using hascii
  | cons next later ih =>
    generalize hentry : ({ textStart := .ofNat offset, styleStart := .ofNat (entryOf offset)
                           softWrapped := true, ascii } : RowEntry) = entry
    have hlater : ascii = true → ∀ char ∈ next ++ later.flatten, Text.IsPrintable char.1 :=
      fun h char hchar => hascii h char (List.mem_append_right _ hchar)
    obtain ⟨new, hnew, hlines, hlaid⟩ :=
      ih (offset + styledSize piece) (before ++ [entry]) next hlater
    have hbytes : (⟨entry, { chars := piece, softWrapped := true }⟩ : FrozenRow).bytes.length
        = styledSize piece := by
      simp [FrozenRow.bytes, StyledLine.text, styledSize]
    refine ⟨⟨entry, { chars := piece, softWrapped := true }⟩ :: new, ?_, ?_, ?_⟩
    · rw [openEntries, hentry, List.append_cons before, hnew, List.map_cons, ← List.append_cons]
    · rw [List.map_cons, hlines, StyledLine.ofPieces]
    · rw [FrozenRow.LaidFrom, hbytes]
      refine ⟨?_, hlaid⟩
      rw [← hentry]
      exact ⟨rfl, rfl, rfl, fun h char hchar => hascii h char (List.mem_append_left _ hchar)⟩

@[simp]
theorem columns_addLine (layout : Layout) (entryOf : Nat → Nat) (ascii : Bool) (offset : Nat)
    (line : StyledLine) : (layout.addLine entryOf ascii offset line).columns = layout.columns := by
  rw [addLine, closeRow, placeAtEnd, columns_placeBefore, columns_addStyled, openRow]

theorem exists_laidFrom_addLine (entryOf : Nat → Nat) {layout : Layout}
    (hcolumns : 0 < layout.columns) {ascii : Bool} (offset : Nat) {line : StyledLine}
    (hascii : ascii = true → ∀ char ∈ line.chars, Text.IsPrintable char.1) :
    ∃ new : List FrozenRow,
      (layout.addLine entryOf ascii offset line).entries.toList
        = layout.entries.toList ++ new.map (·.entry)
      ∧ new.map (·.line) = line.wrap layout.columns
      ∧ FrozenRow.LaidFrom entryOf offset new := by
  have hflatten := StyledLine.wrapChars_flatten layout.columns 0 line.chars
  rw [StyledLine.wrap, Nat.max_eq_left (by omega : 1 ≤ layout.columns)]
  rw [← hflatten] at hascii
  obtain ⟨new, hnew, hlines, hlaid⟩ := exists_laidFrom_openEntries entryOf ascii line.softWrapped
    offset layout.entries.toList _ _ hascii
  refine ⟨new, ?_, hlines, hlaid⟩
  have hentries : ((layout.openRow offset (entryOf offset) ascii).addStyled entryOf ascii offset
      line.chars).entries.toList = layout.entries.toList ++ openEntries entryOf ascii offset
        ((wrapChars layout.columns 0 line.chars).1 :: (wrapChars layout.columns 0 line.chars).2) := by
    rw [entries_addStyled]
    simp [openRow, openEntries]
  rw [← hnew, addLine, closeRow, placeAtEnd, entries_placeBefore, Array.toList_modify, hentries,
    ← Array.length_toList, hentries]

theorem exists_laidFrom_addLines (entryOf : Nat → Nat) {layout : Layout}
    (hcolumns : 0 < layout.columns) (offset : Nat) {lines : List (Bool × StyledLine)}
    (hascii : ∀ line ∈ lines, line.1 = true → ∀ char ∈ line.2.chars, Text.IsPrintable char.1) :
    ∃ new : List FrozenRow,
      (layout.addLines entryOf offset lines).entries.toList
        = layout.entries.toList ++ new.map (·.entry)
      ∧ new.map (·.line) = lines.flatMap (·.2.wrap layout.columns)
      ∧ FrozenRow.LaidFrom entryOf offset new := by
  induction lines generalizing layout offset with
  | nil => exact ⟨[], by simp [addLines], rfl, trivial⟩
  | cons line lines ih =>
    rw [List.forall_mem_cons] at hascii
    obtain ⟨new, hnew, hlines, hlaid⟩ := exists_laidFrom_addLine entryOf hcolumns offset
      hascii.1
    have hcolumns' : 0 < (layout.addLine entryOf line.1 offset line.2).columns := by
      rwa [columns_addLine]
    obtain ⟨new', hnew', hlines', hlaid'⟩ := ih hcolumns' (offset + line.2.byteSize) hascii.2
    refine ⟨new ++ new', ?_, ?_, ?_⟩
    · rw [addLines, hnew', hnew, List.map_append, List.append_assoc]
    · rw [List.map_append, hlines, hlines', columns_addLine, List.flatMap_cons]
    · rw [FrozenRow.laidFrom_append]
      rw [FrozenRow.flatMap_bytes_eq, hlines, StyledLine.flatMap_marked_wrap,
        ← StyledLine.text_eq_map_marked]
      exact ⟨hlaid, hlaid'⟩

end Layout

end Scrollback
