import Scrollback.Proofs.Layout.Entries

/-!
This module contains where a layout places anchors: each at the cursor that the layout has when it
gets to the anchor's offset, whatever the other anchors are.
-/

namespace Scrollback

namespace Layout

structure Cursor where
  rows : Nat
  column : Nat
  deriving DecidableEq

namespace Cursor

variable (cursor : Cursor)

def openRow : Cursor where
  rows := cursor.rows + 1
  column := 0

def openFor (columns width : Nat) : Cursor :=
  if 0 < width ∧ 0 < cursor.column ∧ columns < cursor.column + width then cursor.openRow else cursor

def take (columns : Nat) : Cursor :=
  { cursor with column := cursor.column + columns }

def place : Nat × Nat :=
  (cursor.rows - 1, cursor.column)

/--
The cursor where an offset is reached in styled text, whose first character is at `start`. Offsets
after the text are reached at its end.
-/
def seek (cursor : Cursor) (columns offset start : Nat) : List (Char × Style) → Cursor
  | [] => cursor
  | char :: chars =>
    let width := char.2.columns.toNat
    let next := start + char.1.utf8Size
    if offset < next then
      cursor.openFor columns width
    else
      ((cursor.openFor columns width).take width).seek columns offset next chars

def seekLines (cursor : Cursor) (columns offset start : Nat) : List (Bool × StyledLine) → Cursor
  | [] => cursor
  | (_, line) :: lines =>
    let reached := cursor.openRow.seek columns offset start line.chars
    if offset < start + line.byteSize then
      reached
    else
      reached.seekLines columns offset (start + line.byteSize) lines

end Cursor

def cursor (layout : Layout) : Cursor where
  rows := layout.entries.size
  column := layout.column

@[simp]
theorem column_cursor (layout : Layout) : layout.cursor.column = layout.column :=
  rfl

@[simp]
theorem cursor_openRow (layout : Layout) (textStart styleStart : Nat) (ascii : Bool) :
    (layout.openRow textStart styleStart ascii).cursor = layout.cursor.openRow := by
  simp [cursor, openRow, Cursor.openRow]

@[simp]
theorem cursor_placeBefore (layout : Layout) (limit : Nat) (columnOf : Nat → Nat) :
    (layout.placeBefore limit columnOf).cursor = layout.cursor := by
  simp [cursor]

@[simp]
theorem cursor_take (layout : Layout) (columns : Nat) :
    (layout.take columns).cursor = layout.cursor.take columns :=
  rfl

@[simp]
theorem cursor_closeRow (layout : Layout) (softWrapped : Bool) :
    (layout.closeRow softWrapped).cursor = layout.cursor := by
  simp [cursor, closeRow]

variable {layout : Layout}

theorem placedBefore_placeAtEnd (layout : Layout) (limit : Nat) :
    PlacedBefore layout (layout.placeAtEnd limit) limit fun _ => layout.cursor.place :=
  layout.placedBefore_placeBefore limit _

theorem addStyled_step (layout : Layout) (entryOf : Nat → Nat) (ascii : Bool)
    (start limit width : Nat) :
    let after := ((layout.openFor entryOf ascii start width).placeAtEnd limit).take width
    after.columns = layout.columns
      ∧ after.cursor = (layout.cursor.openFor layout.columns width).take width
      ∧ PlacedBefore layout after limit fun _ => (layout.cursor.openFor layout.columns width).place := by
  have hopen : (layout.openFor entryOf ascii start width).columns = layout.columns
      ∧ (layout.openFor entryOf ascii start width).cursor = layout.cursor.openFor layout.columns width
      ∧ (layout.openFor entryOf ascii start width).pending = layout.pending
      ∧ (layout.openFor entryOf ascii start width).placed = layout.placed := by
    -- The layout and its cursor take a new row under the same condition.
    by_cases h : 0 < width ∧ layout.overflows width
    · have h' : 0 < width ∧ 0 < layout.cursor.column
          ∧ layout.columns < layout.cursor.column + width := by
        simpa [overflows] using h
      rw [openFor, if_pos h, Cursor.openFor, if_pos h', cursor_openRow]
      exact ⟨rfl, rfl, rfl, rfl⟩
    · have h' : ¬ (0 < width ∧ 0 < layout.cursor.column
          ∧ layout.columns < layout.cursor.column + width) := by
        simpa [overflows] using h
      rw [openFor, if_neg h, Cursor.openFor, if_neg h']
      exact ⟨rfl, rfl, rfl, rfl⟩
  obtain ⟨hcolumns, hcursor, hpending, hplaced⟩ := hopen
  have hplace := (layout.openFor entryOf ascii start width).placedBefore_placeAtEnd limit
  rw [hcursor] at hplace
  refine ⟨?_, ?_, ?_, ?_⟩
  · rw [columns_take, placeAtEnd, columns_placeBefore, hcolumns]
  · rw [cursor_take, placeAtEnd, cursor_placeBefore, hcursor]
  · rw [← hpending]
    exact hplace.pending_eq
  · rw [← hpending, ← hplaced]
    exact hplace.placed_eq

theorem cursor_addStyled (layout : Layout) (entryOf : Nat → Nat) (ascii : Bool) {start offset : Nat}
    {chars : List (Char × Style)} (h : start + styledSize chars ≤ offset) :
    (layout.addStyled entryOf ascii start chars).cursor
      =
    layout.cursor.seek layout.columns offset start chars := by
  induction chars generalizing layout start with
  | nil => rfl
  | cons char chars ih =>
    obtain ⟨hcolumns, hcursor, -⟩ := layout.addStyled_step entryOf ascii start
      (start + char.1.utf8Size) char.2.columns.toNat
    rw [styledSize_cons] at h
    rw [addStyled, Cursor.seek, if_neg (by omega), ih _ (by omega), hcolumns, hcursor]

theorem placedBefore_addStyled (entryOf : Nat → Nat) (hsorted : layout.Sorted) (ascii : Bool)
    {start : Nat} (hstart : ∀ anchor ∈ layout.pending, start ≤ anchor.offset) (chars : List (Char × Style)) :
    PlacedBefore layout (layout.addStyled entryOf ascii start chars) (start + styledSize chars)
      fun offset => (layout.cursor.seek layout.columns offset start chars).place := by
  -- The anchors within the first character are placed, the others are at the offsets of the rest.
  induction chars generalizing layout start with
  | nil =>
    exact placedBefore_refl hstart _
  | cons char chars ih =>
    obtain ⟨hcolumns, hcursor, hplaced⟩ := layout.addStyled_step entryOf ascii start
      (start + char.1.utf8Size) char.2.columns.toNat
    rw [styledSize_cons, ← Nat.add_assoc]
    have hnext : (((layout.openFor entryOf ascii start char.2.columns.toNat).placeAtEnd
        (start + char.1.utf8Size)).take char.2.columns.toNat).Sorted :=
      ((hsorted.openFor _ _ _).placeBefore _ _).take _
    rw [addStyled]
    generalize ((layout.openFor entryOf ascii start char.2.columns.toNat).placeAtEnd
      (start + char.1.utf8Size)).take char.2.columns.toNat = next
      at hcolumns hcursor hplaced hnext ⊢
    have hlater : ∀ anchor ∈ next.pending, start + char.1.utf8Size ≤ anchor.offset := by
      rw [hplaced.pending_eq]
      exact fun anchor => hsorted.le_of_mem_dropWhile
    apply (hsorted.placedBefore_trans hplaced (ih hnext hlater) (Nat.le_add_right _ _)).congr
    intro offset _
    rw [Cursor.seek, hcolumns, hcursor]
    split
    · rfl
    · rfl

theorem cursor_addLine (layout : Layout) (entryOf : Nat → Nat) (ascii : Bool) {start offset : Nat}
    {line : StyledLine} (h : start + line.byteSize ≤ offset) :
    (layout.addLine entryOf ascii start line).cursor
      =
    layout.cursor.openRow.seek layout.columns offset start line.chars := by
  have hchars : start + styledSize line.chars ≤ offset := by
    have := line.byteSize_eq
    omega
  rw [addLine, cursor_closeRow, placeAtEnd, cursor_placeBefore, cursor_addStyled _ _ _ hchars,
    cursor_openRow]
  rfl

theorem PlacedBefore.closeRow {textStart styleStart : Nat} {ascii : Bool} {after : Layout}
    {limit : Nat} {placeOf : Nat → Nat × Nat}
    (h : PlacedBefore (layout.openRow textStart styleStart ascii) after limit placeOf)
    (softWrapped : Bool) : PlacedBefore layout (after.closeRow softWrapped) limit placeOf :=
  ⟨h.pending_eq, h.placed_eq⟩

theorem placedBefore_addLine (entryOf : Nat → Nat) (hsorted : layout.Sorted) (ascii : Bool)
    {start : Nat} (hstart : ∀ anchor ∈ layout.pending, start ≤ anchor.offset) (line : StyledLine) :
    PlacedBefore layout (layout.addLine entryOf ascii start line) (start + line.byteSize)
      fun offset => (layout.cursor.openRow.seek layout.columns offset start line.chars).place := by
  have hsize : start + styledSize line.chars ≤ start + line.byteSize := by
    rw [line.byteSize_eq]
    omega
  have hopen : (layout.openRow start (entryOf start) ascii).Sorted := hsorted
  have hchars := placedBefore_addStyled entryOf hopen ascii hstart line.chars
  apply PlacedBefore.closeRow
  apply (hopen.placedBefore_trans hchars (placedBefore_placeAtEnd _ _) hsize).congr
  intro offset _
  split
  · rw [cursor_openRow]
    rfl
  · next h =>
    rw [cursor_addStyled _ _ _ (Nat.not_lt.mp h), cursor_openRow]
    rfl

theorem placed_addLines (entryOf : Nat → Nat) (hsorted : layout.Sorted) {start : Nat}
    (hstart : ∀ anchor ∈ layout.pending, start ≤ anchor.offset) (lines : List (Bool × StyledLine)) :
    (layout.addLines entryOf start lines).placeRest.placed
      =
    placeAll (fun offset => (layout.cursor.seekLines layout.columns offset start lines).place)
      layout.placed layout.pending := by
  -- A paragraph, like a character, places the anchors within it and leaves those after it.
  induction lines generalizing layout start with
  | nil =>
    rw [addLines, placeRest, placeWhile_eq]
    dsimp only
    rw [List.takeWhile_eq_self_iff.mpr fun _ _ => rfl]
    rfl
  | cons line lines ih =>
    have hline := placedBefore_addLine entryOf hsorted line.1 hstart line.2
    have hlater : ∀ anchor ∈ (layout.addLine entryOf line.1 start line.2).pending,
        start + line.2.byteSize ≤ anchor.offset := by
      rw [hline.pending_eq]
      exact fun anchor => hsorted.le_of_mem_dropWhile
    rw [addLines, ih (hsorted.addLine _ _ _ _) hlater, hsorted.placeAll_pending hline]
    apply placeAll_congr
    intro anchor _
    rw [Cursor.seekLines, columns_addLine]
    split
    · rfl
    · next h =>
      rw [cursor_addLine _ _ _ (Nat.not_lt.mp h)]

theorem size_placeAll (placeOf : Nat → Nat × Nat) (placed : Array (Option (Nat × Nat)))
    (anchors : List PendingAnchor) : (placeAll placeOf placed anchors).size = placed.size := by
  induction anchors generalizing placed with
  | nil => rfl
  | cons anchor anchors ih => rw [placeAll, ih, Array.size_setIfInBounds]

theorem getElem?_placeAll {placeOf : Nat → Nat × Nat} {placed : Array (Option (Nat × Nat))}
    {anchors : List PendingAnchor} {marker offset cells : Nat} (hmarker : marker < placed.size)
    (hsame : ∀ anchor ∈ anchors, anchor.marker = marker →
      anchor.offset = offset ∧ anchor.cells = cells)
    (h : placed[marker]? = some (some ((placeOf offset).1, add64 (placeOf offset).2 cells))
      ∨ ∃ anchor ∈ anchors, anchor.marker = marker) :
    (placeAll placeOf placed anchors)[marker]?
      =
    some (some ((placeOf offset).1, add64 (placeOf offset).2 cells)) := by
  -- Either the marker has its place already or its anchor is still to come.
  induction anchors generalizing placed with
  | nil => simpa [placeAll] using h
  | cons anchor anchors ih =>
    rw [List.forall_mem_cons] at hsame
    apply ih (by rwa [Array.size_setIfInBounds]) hsame.2
    by_cases heq : anchor.marker = marker
    · obtain ⟨rfl, rfl⟩ := hsame.1 heq
      left
      rw [heq, Array.getElem?_setIfInBounds_self_of_lt hmarker]
    · rw [Array.getElem?_setIfInBounds_ne heq]
      simpa [heq] using h

theorem mem_pendingAnchors {anchors : List Anchor} {anchor : PendingAnchor} :
    anchor ∈ pendingAnchors anchors
      ↔
    anchors[anchor.marker]? = some (.text anchor.offset anchor.cells) := by
  obtain ⟨offset, cells, marker⟩ := anchor
  rw [pendingAnchors, List.mem_filterMap]
  constructor
  · rintro ⟨⟨anchor, index⟩, hmem, heq⟩
    rw [List.mem_zipIdx_iff_getElem?] at hmem
    cases anchor with
    | text offset' cells' =>
      simp only [Option.some.injEq, PendingAnchor.mk.injEq] at heq
      obtain ⟨rfl, rfl, rfl⟩ := heq
      exact hmem
    | below rows column => simp at heq
  · intro h
    exact ⟨(.text offset cells, marker), List.mem_zipIdx_iff_getElem?.mpr h, rfl⟩

end Layout

def Anchor.shownAt (placeOf : Nat → Nat × Nat) : Anchor → Option (Nat × Nat)
  | .text offset cells => some ((placeOf offset).1, add64 (placeOf offset).2 cells)
  | .below _ _ => none

namespace Layout

theorem map_resolve_addLines (entryOf : Nat → Nat) (columns : Nat) {anchors : List Anchor} {start : Nat}
    (hstart : ∀ offset cells, .text offset cells ∈ anchors → start ≤ offset)
    (lines : List (Bool × StyledLine)) (base first finish : Nat) :
    (anchors.zip (((ofAnchors columns anchors).addLines entryOf start
          lines).placeRest).placed.toList).map
        (fun (anchor, placed) => anchor.resolve base first finish placed)
      =
    anchors.map fun anchor => anchor.resolve base first finish
      (anchor.shownAt fun offset =>
        (Cursor.seekLines { rows := 0, column := 0 } columns offset start lines).place) := by
  generalize hplaceOf : (fun offset =>
    (Cursor.seekLines { rows := 0, column := 0 } columns offset start lines).place) = placeOf
  have hmem {anchor : PendingAnchor} : anchor ∈ (ofAnchors columns anchors).pending
      ↔ anchors[anchor.marker]? = some (.text anchor.offset anchor.cells) := by
    rw [ofAnchors, List.mem_mergeSort, mem_pendingAnchors]
  have hplaced : (((ofAnchors columns anchors).addLines entryOf start lines).placeRest).placed
      = placeAll placeOf (Array.replicate anchors.length none) (ofAnchors columns anchors).pending := by
    rw [placed_addLines entryOf (sorted_ofAnchors _ _)]
    · rw [← hplaceOf]
      rfl
    · intro anchor hanchor
      exact hstart _ _ (List.mem_of_getElem? (hmem.mp hanchor))
  rw [hplaced]
  have hsize := size_placeAll placeOf (Array.replicate anchors.length none)
    (ofAnchors columns anchors).pending
  rw [Array.size_replicate] at hsize
  apply List.ext_getElem
  · simp [hsize]
  · intro k hk hk'
    rw [List.length_map] at hk'
    simp only [List.getElem_map, List.getElem_zip]
    cases hanchor : anchors[k] with
    | below rows column => rfl
    | text offset cells =>
      have hget : anchors[k]? = some (.text offset cells) := by
        rw [List.getElem?_eq_getElem hk', hanchor]
      have hplace : (placeAll placeOf (Array.replicate anchors.length none)
          (ofAnchors columns anchors).pending)[k]?
            = some (some ((placeOf offset).1, add64 (placeOf offset).2 cells)) := by
        apply getElem?_placeAll (by simpa using hk')
        · intro anchor hanchor heq
          have hother := hmem.mp hanchor
          rw [heq, hget, Option.some.injEq, Anchor.text.injEq] at hother
          exact ⟨hother.1.symm, hother.2.symm⟩
        · exact Or.inr ⟨⟨offset, cells, k⟩, hmem.mpr hget, rfl⟩
      rw [← Array.getElem?_toList] at hplace
      rw [(List.getElem?_eq_some_iff.mp hplace).2]
      rfl

end Layout

end Scrollback
