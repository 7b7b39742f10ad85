import Scrollback.Proofs.Layout.Entries

/-!
This module contains the proof that the archive of some rows becomes the archive of any other rows
with the same text once its row log holds the entries that a layout gave them.
-/

namespace Scrollback

/--
Whether text that starts at an offset has the styles that it comes with. Line breaks have none.
-/
def MarkedBy (styles : Nat → Style) (offset : Nat) : List (Char × Option Style) → Prop
  | [] => True
  | (char, style) :: chars =>
    (∀ s ∈ style, styles offset = s) ∧ MarkedBy styles (offset + char.utf8Size) chars

theorem markedBy_append {styles : Nat → Style} {offset : Nat}
    {chars chars' : List (Char × Option Style)} :
    MarkedBy styles offset (chars ++ chars')
      ↔
    MarkedBy styles offset chars
      ∧ MarkedBy styles (offset + (Text.utf8 (chars.map (·.1))).length) chars' := by
  induction chars generalizing offset with
  | nil => simp [MarkedBy]
  | cons char chars ih =>
    simp only [List.cons_append, MarkedBy, ih, List.map_cons, Text.length_utf8_cons, Nat.add_assoc,
      and_assoc]

theorem markedBy_marked {styles : Nat → Style} {offset : Nat} {line : StyledLine} :
    MarkedBy styles offset line.marked ↔ StyledBy styles offset line.chars := by
  obtain ⟨chars, softWrapped⟩ := line
  have hend : ∀ offset, MarkedBy styles offset (if softWrapped then [] else [('\n', none)]) := by
    intro offset
    split
    · trivial
    · simp [MarkedBy]
  rw [StyledLine.marked, markedBy_append, and_iff_left (hend _)]
  induction chars generalizing offset with
  | nil => rfl
  | cons char chars ih =>
    dsimp only at ih
    simp [MarkedBy, StyledBy, ih]

theorem StyledLine.mem_chars_of_mem_marked {line : StyledLine} {char : Char × Style}
    (h : (char.1, some char.2) ∈ line.marked) : char ∈ line.chars := by
  rw [marked, List.mem_append, List.mem_map] at h
  rcases h with ⟨other, hother, heq⟩ | h
  · rw [Prod.mk.injEq, Option.some.injEq] at heq
    rwa [← Prod.ext heq.1 heq.2]
  · split at h
    · simp at h
    · simp at h

namespace FrozenRow

theorem markedBy_iff {styles : Nat → Style} {offset : Nat} {rows : List FrozenRow}
    (h : PlacedFrom offset rows) :
    MarkedBy styles offset ((rows.map (·.line)).flatMap StyledLine.marked)
      ↔
    ∀ row ∈ rows, StyledBy styles row.start row.line.chars := by
  induction rows generalizing offset with
  | nil => simp [MarkedBy]
  | cons row rows ih =>
    obtain ⟨hstart, -, hrows⟩ := h
    rw [List.map_cons, List.flatMap_cons, markedBy_append, markedBy_marked, List.forall_mem_cons,
      ← StyledLine.text_eq_map_marked, hstart]
    exact and_congr_right' (ih hrows)

theorem LaidFrom.placedFrom {entryOf : Nat → Nat} {offset : Nat} {rows : List FrozenRow}
    (h : LaidFrom entryOf offset rows) (hrange : offset + (rows.flatMap bytes).length < 2 ^ 64) :
    PlacedFrom offset rows := by
  induction rows generalizing offset with
  | nil => trivial
  | cons row rows ih =>
    obtain ⟨⟨hstart, -, hsoft, -⟩, hrows⟩ := h
    rw [List.flatMap_cons, List.length_append] at hrange
    refine ⟨?_, hsoft, ih hrows (by omega)⟩
    rw [start, hstart]
    exact UInt64.toNat_ofNat_of_lt' (Nat.lt_of_le_of_lt (Nat.le_add_right _ _) hrange)

theorem LaidFrom.forall_mem {entryOf : Nat → Nat} {offset : Nat} {rows : List FrozenRow}
    (h : LaidFrom entryOf offset rows) (hplaced : PlacedFrom offset rows) :
    ∀ row ∈ rows, row.entry.styleStart = .ofNat (entryOf row.start)
      ∧ (row.entry.ascii = true → ∀ char ∈ row.line.chars, Text.IsPrintable char.1) := by
  induction rows generalizing offset with
  | nil => simp
  | cons row rows ih =>
    obtain ⟨⟨-, hstyle, -, hascii⟩, hrows⟩ := h
    obtain ⟨hstart, -, hplaced⟩ := hplaced
    rw [List.forall_mem_cons, hstart]
    exact ⟨⟨hstyle, hascii⟩, ih hrows hplaced⟩

theorem PlacedFrom.pairwise {offset : Nat} {rows : List FrozenRow} (h : PlacedFrom offset rows) :
    (∀ row ∈ rows, offset ≤ row.start) ∧ rows.Pairwise (·.start ≤ ·.start) := by
  induction rows generalizing offset with
  | nil => simp
  | cons row rows ih =>
    obtain ⟨hstart, -, hrows⟩ := h
    obtain ⟨hle, hpairwise⟩ := ih hrows
    rw [List.forall_mem_cons, List.pairwise_cons]
    refine ⟨⟨by omega, fun later hlater => ?_⟩, fun later hlater => ?_, hpairwise⟩
    · have := hle later hlater
      omega
    · have := hle later hlater
      omega

end FrozenRow

namespace ArchiveContents.Holds

variable {contents : ArchiveContents} {first : Nat} {frozen new : List FrozenRow}
  {changes : List StyleChange}

theorem entryAt_eq (contents : ArchiveContents) (changes : List StyleChange) (offset : Nat) :
    contents.entryAt changes offset
      =
    contents.attributes.tail
      + changes.findIdx (offset < ·.textEnd.toNat) * StyleChange.size := by
  rw [entryAt, entry_styleRunAt]

theorem entryAt_mono (contents : ArchiveContents) (changes : List StyleChange) {offset offset' : Nat}
    (h : offset ≤ offset') : contents.entryAt changes offset ≤ contents.entryAt changes offset' := by
  rw [entryAt_eq, entryAt_eq]
  apply Nat.add_le_add_left
  apply Nat.mul_le_mul_right
  apply List.findIdx_le_findIdx
  simp only [decide_eq_true_eq]
  omega

theorem entryAt_le_head (h : contents.Holds first frozen changes) (offset : Nat) :
    contents.entryAt changes offset ≤ contents.attributes.head := by
  rw [entryAt_eq, h.head_attributes]
  exact Nat.add_le_add_left (Nat.mul_le_mul_right _ List.findIdx_le_length) _

theorem relayout (h : contents.Holds first frozen changes) (hrange : contents.InRange)
    (hlaid : FrozenRow.LaidFrom (contents.entryAt changes) contents.text.tail new)
    (hmarked : (new.map (·.line)).flatMap StyledLine.marked
      = (frozen.map (·.line)).flatMap StyledLine.marked) :
    ArchiveContents.Holds
      { contents with
        rows := { tail := RowEntry.offsetOf first, bytes := new.flatMap (·.entry.encode) } }
      first new changes := by
  have hbytes : new.flatMap FrozenRow.bytes = frozen.flatMap FrozenRow.bytes := by
    rw [FrozenRow.flatMap_bytes_eq, FrozenRow.flatMap_bytes_eq, hmarked]
  have hplaced : FrozenRow.PlacedFrom contents.text.tail new := by
    apply hlaid.placedFrom
    rw [hbytes, ← h.head_text]
    exact hrange.1
  have hentry : ∀ row ∈ new,
      row.entry.styleStart.toNat = contents.entryAt changes row.start := by
    intro row hrow
    rw [(hlaid.forall_mem hplaced row hrow).1]
    exact UInt64.toNat_ofNat_of_lt' (Nat.lt_of_le_of_lt (h.entryAt_le_head _) hrange.2)
  constructor
  · rfl
  · exact h.text_eq.trans hbytes.symm
  · exact h.attributes_eq
  · exact h.runs
  · exact hplaced
  · -- That the text has its styles says nothing about where the rows begin.
    rw [← FrozenRow.markedBy_iff hplaced, hmarked, FrozenRow.markedBy_iff h.placed]
    exact h.styled
  · intro row hrow
    refine ⟨_, List.findIdx_le_length, ?_, forall_take_findIdx changes row.start⟩
    rw [hentry row hrow, entryAt_eq]
  · apply hplaced.pairwise.2.imp_of_mem
    intro row later hrow hlater hle
    rw [hentry row hrow, hentry later hlater]
    exact entryAt_mono contents changes hle
  · exact fun row hrow => (hlaid.forall_mem hplaced row hrow).2
  · intro row hrow char hchar
    have hmem : (char.1, some char.2) ∈ (frozen.map (·.line)).flatMap StyledLine.marked := by
      rw [← hmarked, List.flatMap_map, List.mem_flatMap]
      exact ⟨row, hrow, List.mem_append_left _ (List.mem_map_of_mem hchar)⟩
    rw [List.flatMap_map, List.mem_flatMap] at hmem
    obtain ⟨old, hold, hmem⟩ := hmem
    exact h.flagsDefined old hold char (StyledLine.mem_chars_of_mem_marked hmem)

end ArchiveContents.Holds

theorem StyledLine.wrap_max (line : StyledLine) (columns : Nat) :
    line.wrap (max columns 1) = line.wrap columns := by
  rw [wrap, wrap, Nat.max_assoc, Nat.max_self]

theorem StyledLine.ofPieces_ne_nil (softWrapped : Bool) (piece : List (Char × Style))
    (later : List (List (Char × Style))) : ofPieces softWrapped piece later ≠ [] := by
  cases later with
  | nil => simp [ofPieces]
  | cons next later => simp [ofPieces]

theorem StyledLine.rewrap_ne_nil {lines : List StyledLine} (h : lines ≠ []) (columns : Nat) :
    rewrap lines columns ≠ [] := by
  obtain ⟨init, last, rest, rfl, hinit, hlast⟩ :=
    exists_chain (fun line : StyledLine => line.softWrapped) h
  rw [rewrap, chains_append hinit hlast, List.flatMap_cons]
  exact List.append_ne_nil_of_left_ne_nil (ofPieces_ne_nil _ _ _) _

theorem StyledLine.flatMap_marked_rewrap (lines : List StyledLine) (columns : Nat) :
    (rewrap lines columns).flatMap marked = lines.flatMap marked := by
  induction lines using chains_rec (fun line : StyledLine => line.softWrapped) with
  | nil => rfl
  | append init last rest hinit hlast ih =>
    rw [rewrap, chains_append hinit hlast, List.flatMap_cons, List.flatMap_append, flatMap_marked_wrap,
      marked_join hinit, ← rewrap, ih, ← List.flatMap_append]

namespace FrozenRow

theorem flatMap_wrap_paragraphs (rows : List FrozenRow) (columns : Nat) :
    (paragraphs rows).flatMap (·.2.wrap (max columns 1))
      =
    StyledLine.rewrap (rows.map (·.line)) columns := by
  rw [paragraphs, StyledLine.rewrap, chains_map, List.flatMap_map, List.flatMap_map]
  exact List.flatMap_congr fun rows _ => StyledLine.wrap_max _ _

end FrozenRow

def ArchiveContents.layout (contents : ArchiveContents) (changes : List StyleChange)
    (frozen : List FrozenRow) (columns : Nat) (anchors : List Anchor) : Layout :=
  ((Layout.ofAnchors (max columns 1) anchors).addLines (contents.entryAt changes) contents.text.tail
    (FrozenRow.paragraphs frozen)).placeRest

namespace ArchiveContents.Holds

variable {contents : ArchiveContents} {first : Nat} {frozen : List FrozenRow}
  {changes : List StyleChange}

theorem reads_layout {σ : Type} [ByteLog σ] [LawfulLog σ] (h : contents.Holds first frozen changes)
    (columns : Nat) (anchors : List Anchor) :
    Archive.Reads (σ := σ)
      ((Layout.ofAnchors (max columns 1) anchors).addRows first (first + frozen.length)) contents
      (contents.layout changes frozen columns anchors) :=
  h.reads_addRows (Layout.sorted_ofAnchors _ _)

theorem exists_relayout (h : contents.Holds first frozen changes) (hrange : contents.InRange)
    (columns : Nat) (anchors : List Anchor) :
    ∃ new : List FrozenRow,
      (contents.layout changes frozen columns anchors).entries.toList = new.map (·.entry)
      ∧ new.map (·.line) = StyledLine.rewrap (frozen.map (·.line)) columns
      ∧ ArchiveContents.Holds
        { contents with
          rows := { tail := RowEntry.offsetOf first, bytes := new.flatMap (·.entry.encode) } }
        first new changes := by
  have hascii : ∀ line ∈ FrozenRow.paragraphs frozen, line.1 = true →
      ∀ char ∈ line.2.chars, Text.IsPrintable char.1 := by
    intro line hline
    obtain ⟨rows, hrows, rfl⟩ := List.mem_map.mp hline
    apply h.isPrintable_join
    intro row hrow
    rw [← List.flatten_splitBy (fun row _ => row.line.softWrapped) frozen]
    exact List.mem_flatten_of_mem hrows hrow
  have hcolumns : 0 < (Layout.ofAnchors (max columns 1) anchors).columns :=
    Nat.le_max_right columns 1
  obtain ⟨new, hnew, hlines, hlaid⟩ := Layout.exists_laidFrom_addLines (contents.entryAt changes)
    hcolumns contents.text.tail hascii
  have hrewrap : new.map (·.line) = StyledLine.rewrap (frozen.map (·.line)) columns := by
    rw [hlines, ← FrozenRow.flatMap_wrap_paragraphs]
    rfl
  refine ⟨new, ?_, hrewrap, h.relayout hrange hlaid ?_⟩
  · rw [layout, Layout.placeRest, Layout.entries_placeWhile, hnew]
    rfl
  · rw [hrewrap, StyledLine.flatMap_marked_rewrap]

end ArchiveContents.Holds

end Scrollback
