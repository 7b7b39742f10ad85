import Scrollback.Proofs.Layout.Text
import Scrollback.Proofs.Row.Paragraph

/-!
This module contains the proof that the paragraphs of the frozen rows are laid out one after the
other.
-/

namespace Scrollback

namespace StyledLine

def byteSize (line : StyledLine) : Nat :=
  (Text.utf8 line.text).length

theorem byteSize_eq (line : StyledLine) :
    line.byteSize = styledSize line.chars + if line.softWrapped then 0 else 1 := by
  rw [byteSize, text, Text.utf8_append, List.length_append, styledSize]
  split
  · rfl
  · rfl

variable {init : List StyledLine} {last : StyledLine}

theorem softWrapped_join (init : List StyledLine) (last : StyledLine) :
    (join (init ++ [last])).softWrapped = last.softWrapped := by
  simp [join]

def marked (line : StyledLine) : List (Char × Option Style) :=
  line.chars.map (fun char => (char.1, some char.2))
    ++ if line.softWrapped then [] else [('\n', none)]

theorem text_eq_map_marked (line : StyledLine) : line.text = line.marked.map (·.1) := by
  rw [text, marked, List.map_append, List.map_map]
  split
  · rfl
  · rfl

theorem marked_join (hinit : ∀ line ∈ init, line.softWrapped = true) :
    (join (init ++ [last])).marked = (init ++ [last]).flatMap marked := by
  -- No row but the last of a paragraph has a line break.
  have hmarked : init.flatMap marked
      = (init.flatMap (·.chars)).map (fun char => (char.1, some char.2)) := by
    rw [List.map_flatMap]
    apply List.flatMap_congr
    intro line hline
    rw [marked, hinit line hline, if_pos rfl, List.append_nil]
  rw [marked, softWrapped_join, join, List.flatMap_append, List.flatMap_append, hmarked,
    List.flatMap_singleton, List.flatMap_singleton, List.map_append, List.append_assoc, marked]

theorem text_join (hinit : ∀ line ∈ init, line.softWrapped = true) :
    (join (init ++ [last])).text = (init ++ [last]).flatMap text := by
  rw [text_eq_map_marked, marked_join hinit, List.map_flatMap]
  exact List.flatMap_congr fun line _ => line.text_eq_map_marked.symm

end StyledLine

namespace FrozenRow

def join (rows : List FrozenRow) : Bool × StyledLine :=
  (rows.all (·.entry.ascii), StyledLine.join (rows.map (·.line)))

def paragraphs (rows : List FrozenRow) : List (Bool × StyledLine) :=
  (chains (·.line.softWrapped) rows).map join

variable {init rest : List FrozenRow} {last : FrozenRow}

theorem softWrapped_join (init : List FrozenRow) (last : FrozenRow) :
    (join (init ++ [last])).2.softWrapped = last.line.softWrapped := by
  rw [join, List.map_append, List.map_singleton]
  exact StyledLine.softWrapped_join _ _

theorem bytes_join (hinit : ∀ row ∈ init, row.line.softWrapped = true) :
    Text.utf8 (join (init ++ [last])).2.text = (init ++ [last]).flatMap bytes := by
  have hinit' : ∀ line ∈ init.map (·.line), line.softWrapped = true :=
    List.forall_mem_map.mpr hinit
  rw [join, List.map_append, List.map_singleton, StyledLine.text_join hinit', ← List.map_singleton,
    ← List.map_append, Text.utf8, List.flatMap_map, List.flatMap_assoc]
  rfl

theorem styledBy_join (hinit : ∀ row ∈ init, row.line.softWrapped = true) {offset : Nat}
    (hplaced : PlacedFrom offset (init ++ [last])) {styles : Nat → Style}
    (hstyled : ∀ row ∈ init ++ [last], StyledBy styles row.start row.line.chars) :
    StyledBy styles offset (join (init ++ [last])).2.chars := by
  induction init generalizing offset with
  | nil =>
    rw [List.nil_append, List.forall_mem_singleton, hplaced.1] at hstyled
    simpa [join, StyledLine.join] using hstyled
  | cons row init ih =>
    rw [List.forall_mem_cons] at hinit
    rw [List.cons_append, List.forall_mem_cons] at hstyled
    rw [List.cons_append] at hplaced
    obtain ⟨hstart, -, hplaced⟩ := hplaced
    have hbytes : row.bytes.length = styledSize row.line.chars := by
      have := row.line.byteSize_eq
      rw [hinit.1] at this
      exact this
    have hchars : (join (row :: init ++ [last])).2.chars
        = row.line.chars ++ (join (init ++ [last])).2.chars := rfl
    rw [hchars, styledBy_append, ← hbytes, ← hstart]
    rw [← hstart] at hplaced
    exact ⟨hstyled.1, ih hinit.2 hplaced hstyled.2⟩

end FrozenRow

namespace Layout

def addLine (layout : Layout) (entryOf : Nat → Nat) (ascii : Bool) (offset : Nat)
    (line : StyledLine) : Layout :=
  (((layout.openRow offset (entryOf offset) ascii).addStyled entryOf ascii offset
    line.chars).placeAtEnd (offset + line.byteSize)).closeRow line.softWrapped

def addLines (layout : Layout) (entryOf : Nat → Nat) (offset : Nat) :
    List (Bool × StyledLine) → Layout
  | [] => layout
  | (ascii, line) :: lines =>
    (layout.addLine entryOf ascii offset line).addLines entryOf (offset + line.byteSize) lines

theorem Sorted.addLine {layout : Layout} (h : layout.Sorted) (entryOf : Nat → Nat) (ascii : Bool)
    (offset : Nat) (line : StyledLine) : (layout.addLine entryOf ascii offset line).Sorted := by
  have hopen : (layout.openRow offset (entryOf offset) ascii).Sorted := h
  exact (hopen.addStyled ascii offset line.chars).placeBefore _ _

end Layout

structure FrozenRow.ParagraphAt (frozen before init : List FrozenRow) (last : FrozenRow)
    (rest : List FrozenRow) : Prop where
  eq : frozen = before ++ (init ++ [last] ++ rest)
  init : ∀ row ∈ init, row.line.softWrapped = true
  last : last.line.softWrapped = true → rest = []

namespace FrozenRow.ParagraphAt

variable {frozen before init rest : List FrozenRow} {last row : FrozenRow}

theorem length_eq (h : ParagraphAt frozen before init last rest) :
    frozen.length = before.length + (init.length + 1) + rest.length := by
  rw [h.eq]
  simp only [List.length_append, List.length_singleton]
  omega

theorem getElem?_last (h : ParagraphAt frozen before init last rest) :
    frozen[before.length + init.length]? = some last := by
  rw [h.eq]
  simp

theorem mem (h : ParagraphAt frozen before init last rest) :
    ∀ row ∈ init ++ [last], row ∈ frozen := by
  intro row hrow
  rw [h.eq]
  exact List.mem_append_right _ (List.mem_append_left _ hrow)

theorem tail (h : ParagraphAt frozen before (row :: init) last rest) :
    ParagraphAt frozen (before ++ [row]) init last rest where
  eq := by
    rw [h.eq]
    simp
  init := (List.forall_mem_cons.mp h.init).2
  last := h.last

end FrozenRow.ParagraphAt

namespace ArchiveContents.Holds

open Archive FrozenRow

variable {σ : Type} [ByteLog σ] [LawfulLog σ] {contents : ArchiveContents} {first : Nat}
  {frozen before init rest : List FrozenRow} {last row : FrozenRow} {changes : List StyleChange}

theorem reads_lastOfParagraph (h : contents.Holds first frozen changes)
    (hparagraph : ParagraphAt frozen before init last rest)
    (hrow : frozen[before.length]? = some row) :
    Reads (σ := σ)
      (Layout.lastOfParagraph (first + frozen.length) (first + before.length) row.entry) contents
      (init.length, last.entry, (init ++ [last]).all (·.entry.ascii)) := by
  have hlength := hparagraph.length_eq
  have hsoft := h.softWrapped_eq hrow
  -- The entries are read up to the first that is not soft-wrapped, which is that of the last row.
  induction init generalizing before row with
  | nil =>
    have hlast := hparagraph.getElem?_last
    rw [List.length_nil, Nat.add_zero, hrow, Option.some.injEq] at hlast
    subst hlast
    rw [Layout.lastOfParagraph, if_neg]
    · simpa using Reads.pure _
    · rintro ⟨hwrapped, hlt⟩
      rw [hsoft] at hwrapped
      rw [hparagraph.last hwrapped, List.length_nil] at hlength
      omega
  | cons next init ih =>
    have hnext : row = next := by
      rw [hparagraph.eq] at hrow
      simpa using hrow.symm
    subst hnext
    have hlt : (before ++ [row]).length < frozen.length := by
      simp only [List.length_append, List.length_cons, List.length_nil] at hlength ⊢
      omega
    obtain ⟨next, hget⟩ : ∃ next, frozen[(before ++ [row]).length]? = some next :=
      ⟨_, List.getElem?_eq_getElem hlt⟩
    have hread := h.reads_readEntry (σ := σ) hget
    have hrest := ih hparagraph.tail hget hparagraph.tail.length_eq (h.softWrapped_eq hget)
    rw [List.length_append, List.length_singleton, ← Nat.add_assoc] at hread hrest
    rw [List.length_append, List.length_singleton] at hlt
    rw [Layout.lastOfParagraph, if_pos]
    · exact Reads.bind hread (Reads.bind hrest (Reads.pure _))
    · refine ⟨hsoft.trans (hparagraph.init row List.mem_cons_self), ?_⟩
      omega

theorem isPrintable_join (h : contents.Holds first frozen changes) {rows : List FrozenRow}
    (hrows : ∀ row ∈ rows, row ∈ frozen) (hascii : (join rows).1 = true) :
    ∀ char ∈ (join rows).2.chars, Text.IsPrintable char.1 := by
  intro char hchar
  simp only [join, StyledLine.join, List.mem_flatMap, List.mem_map, List.all_eq_true] at hascii hchar
  obtain ⟨_, ⟨row, hrow, rfl⟩, hchar⟩ := hchar
  exact h.ascii row (hrows row hrow) (hascii row hrow) char hchar

variable (h : contents.Holds first frozen changes)
  (hparagraph : ParagraphAt frozen before init last rest) (hrow : frozen[before.length]? = some row)

include h hparagraph hrow

theorem start_paragraph_eq :
    row.start = contents.text.tail + (before.flatMap FrozenRow.bytes).length := by
  rw [h.start_eq hrow, hparagraph.eq, List.take_left]

theorem placed_paragraph : PlacedFrom row.start (init ++ [last]) := by
  have hplaced := h.placed
  rw [hparagraph.eq, placedFrom_append, placedFrom_append,
    ← h.start_paragraph_eq hparagraph hrow] at hplaced
  exact hplaced.2.1

theorem styled_paragraph :
    StyledBy (styleAt changes contents.openRun) row.start (join (init ++ [last])).2.chars := by
  apply styledBy_join hparagraph.init (h.placed_paragraph hparagraph hrow)
  intro row hrow
  exact h.styled row (hparagraph.mem row hrow)

theorem text_paragraph_eq :
    contents.text.bytes.drop (row.start - contents.text.tail)
      =
    Text.utf8 (join (init ++ [last])).2.text ++ rest.flatMap FrozenRow.bytes := by
  rw [h.text_eq, h.start_paragraph_eq hparagraph hrow, Nat.add_sub_cancel_left, hparagraph.eq,
    List.flatMap_append, List.drop_left, List.flatMap_append, bytes_join hparagraph.init]

theorem slice_paragraph_eq :
    contents.text.slice row.start (styledSize (join (init ++ [last])).2.chars)
      =
    Text.utf8 ((join (init ++ [last])).2.chars.map (·.1)) := by
  rw [LogContents.slice, h.text_paragraph_eq hparagraph hrow, StyledLine.text, Text.utf8_append,
    List.append_assoc, styledSize, List.take_left]

theorem reads_addText {reader : RunReader}
    (hready : reader.Ready contents.attributes changes contents.openRun row.start)
    (layout : Layout) :
    Reads (σ := σ)
      (layout.addText contents.attributes.head reader row.start
        (row.start + styledSize (join (init ++ [last])).2.chars)) contents
      (layout.addStyled (contents.entryAt changes) false row.start
        (join (init ++ [last])).2.chars) := by
  have htail : contents.text.tail ≤ row.start := (h.bounds hrow).1
  have hhead : row.start + styledSize (join (init ++ [last])).2.chars ≤ contents.text.head := by
    have hlength := congrArg List.length (h.text_paragraph_eq hparagraph hrow)
    rw [List.length_drop, List.length_append, StyledLine.text, Text.utf8_append, List.length_append,
      ← styledSize] at hlength
    rw [LogContents.head]
    have := (h.bounds hrow).2
    rw [LogContents.head] at this
    omega
  unfold Layout.addText
  apply Reads.bind (Reads.onLog_read htail (by rw [Nat.add_sub_cancel_left]; exact hhead))
  have htext : (contents.text.slice row.start
      (row.start + styledSize (join (init ++ [last])).2.chars - row.start)).toByteArray.data.toList
      = Text.utf8 ((join (init ++ [last])).2.chars.map (·.1)) := by
    rw [Nat.add_sub_cancel_left, h.slice_paragraph_eq hparagraph hrow, List.data_toByteArray]
  rw [ArchiveContents.log, Text.fromUTF8?_eq htext]
  dsimp only
  rw [String.toList_ofList]
  exact h.reads_addChars htail hready layout (h.styled_paragraph hparagraph hrow)

theorem reads_addParagraph {layout : Layout} (hsorted : layout.Sorted) :
    Reads (σ := σ)
      (layout.addParagraph row.entry (row.start + styledSize (join (init ++ [last])).2.chars)
        (join (init ++ [last])).1) contents
      ((layout.openRow row.start (contents.entryAt changes row.start)
        (join (init ++ [last])).1).addStyled (contents.entryAt changes) (join (init ++ [last])).1
          row.start (join (init ++ [last])).2.chars) := by
  have htail : contents.text.tail ≤ row.start := (h.bounds hrow).1
  obtain ⟨reader, hready, hreads⟩ := h.reads_addParagraph_of_row (σ := σ) hrow layout
  apply hreads
  have hopened : (layout.openRow row.start (contents.entryAt changes row.start)
      (join (init ++ [last])).1).Sorted := hsorted
  split
  · next hascii =>
    have hsize := fun char hchar => (h.isPrintable_join hparagraph.mem hascii char hchar).utf8Size_eq
    rw [hascii] at hopened ⊢
    rw [styledSize_eq_length hsize]
    exact h.reads_addAscii htail hready hopened hsize (h.styled_paragraph hparagraph hrow)
  · next hascii =>
    rw [Bool.not_eq_true] at hascii
    rw [hascii]
    exact h.reads_addText hparagraph hrow hready _

theorem stop_paragraph_eq :
    last.start + last.bytes.length = row.start + (join (init ++ [last])).2.byteSize := by
  have htake : frozen.take (before.length + init.length + 1) = before ++ (init ++ [last]) := by
    rw [hparagraph.eq, ← List.append_assoc, List.take_left']
    simp [Nat.add_assoc]
  rw [h.start_add_length hparagraph.getElem?_last, h.start_paragraph_eq hparagraph hrow, htake,
    List.flatMap_append, List.length_append, StyledLine.byteSize, bytes_join hparagraph.init,
    Nat.add_assoc]

theorem contentStop_eq :
    row.start + styledSize (join (init ++ [last])).2.chars
      =
    last.start + last.bytes.length - if last.entry.softWrapped then 0 else 1 := by
  rw [h.stop_paragraph_eq hparagraph hrow, StyledLine.byteSize_eq, softWrapped_join,
    ← h.softWrapped_eq hparagraph.getElem?_last]
  omega

omit hrow in
theorem reads_addRows_paragraph {layout : Layout} (hsorted : layout.Sorted) {after : Layout}
    (hafter : Reads (σ := σ)
      ((layout.addLine (contents.entryAt changes) (join (init ++ [last])).1
          (contents.text.tail + (before.flatMap FrozenRow.bytes).length)
          (join (init ++ [last])).2).addRows
        (first + (before ++ (init ++ [last])).length) (first + frozen.length)) contents after) :
    Reads (σ := σ) (layout.addRows (first + before.length) (first + frozen.length)) contents
      after := by
  have hlength := hparagraph.length_eq
  obtain ⟨row, hrow⟩ : ∃ row, frozen[before.length]? = some row :=
    ⟨_, List.getElem?_eq_getElem (by omega)⟩
  have hsoft := h.softWrapped_eq hparagraph.getElem?_last
  have htextEnd := h.reads_textEnd (σ := σ) hparagraph.getElem?_last
  rw [← Nat.add_assoc] at htextEnd
  rw [Layout.addLine, ← h.start_paragraph_eq hparagraph hrow, ← h.stop_paragraph_eq hparagraph hrow,
    softWrapped_join, ← hsoft, List.length_append, List.length_append, List.length_singleton,
    ← Nat.add_assoc, ← Nat.add_assoc] at hafter
  rw [Layout.addRows, if_pos (by omega)]
  apply Reads.bind (h.reads_readEntry hrow)
  apply Reads.bind (h.reads_lastOfParagraph hparagraph hrow)
  apply Reads.bind htextEnd
  have hadd := h.reads_addParagraph (σ := σ) hparagraph hrow hsorted
  rw [h.contentStop_eq hparagraph hrow] at hadd
  dsimp only
  split
  · next hwrapped =>
    rw [if_pos hwrapped, Nat.sub_zero] at hadd
    exact Reads.bind (Reads.pure _) (Reads.bind hadd hafter)
  · next hwrapped =>
    rw [if_neg hwrapped] at hadd
    rw [if_pos]
    · exact Reads.bind (Reads.pure _) (Reads.bind hadd hafter)
    · have hbytes := last.line.byteSize_eq
      rw [← hsoft, if_neg hwrapped] at hbytes
      change last.start < last.start + last.line.byteSize
      omega

end ArchiveContents.Holds

theorem ArchiveContents.Holds.reads_addRows {σ : Type} [ByteLog σ] [LawfulLog σ]
    {contents : ArchiveContents} {first : Nat} {frozen : List FrozenRow}
    {changes : List StyleChange} (h : contents.Holds first frozen changes) {layout : Layout}
    (hsorted : layout.Sorted) :
    Archive.Reads (σ := σ) (layout.addRows first (first + frozen.length)) contents
      (layout.addLines (contents.entryAt changes) contents.text.tail
        (FrozenRow.paragraphs frozen)).placeRest := by
  suffices hsuffices : ∀ before rows : List FrozenRow, frozen = before ++ rows →
      Archive.Reads (σ := σ) (layout.addRows (first + before.length) (first + frozen.length)) contents
        (layout.addLines (contents.entryAt changes)
          (contents.text.tail + (before.flatMap FrozenRow.bytes).length)
          (FrozenRow.paragraphs rows)).placeRest from
    hsuffices [] frozen rfl
  intro before rows heq
  induction rows using chains_rec (fun row : FrozenRow => row.line.softWrapped)
    generalizing before layout with
  | nil =>
    rw [heq, List.append_nil, Layout.addRows, if_neg (Nat.lt_irrefl _)]
    exact Archive.Reads.pure _
  | append init last rest hinit hlast ih =>
    have hoffset : contents.text.tail
          + ((before ++ (init ++ [last])).flatMap FrozenRow.bytes).length
        = contents.text.tail + (before.flatMap FrozenRow.bytes).length
          + (FrozenRow.join (init ++ [last])).2.byteSize := by
      rw [List.flatMap_append, List.length_append, ← FrozenRow.bytes_join hinit, Nat.add_assoc]
      rfl
    apply h.reads_addRows_paragraph ⟨heq, hinit, hlast⟩ hsorted
    rw [FrozenRow.paragraphs, chains_append hinit hlast, List.map_cons, Layout.addLines, ← hoffset]
    exact ih (hsorted.addLine _ _ _ _) (before ++ (init ++ [last])) (by simp [heq])

end Scrollback
