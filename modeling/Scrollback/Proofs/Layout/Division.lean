import Scrollback.Layout.Paragraph
import Scrollback.Proofs.Archive.Text
import Scrollback.Proofs.Layout.Place

/-!
This module contains the proof that the rows of a layout divide the text that was divided by the rows
before, and are marked as 7-bit only where the text is. Which rows there are depends on the styles of
the text, but that they divide it does not.
-/

namespace Scrollback

namespace Layout

variable {layout : Layout} {contents : ArchiveContents} {offset stop limit : Nat}

def starts (layout : Layout) : List Nat :=
  layout.entries.toList.map (·.textStart.toNat)

def marks (layout : Layout) : List (Nat × Bool) :=
  layout.entries.toList.map fun entry => (entry.textStart.toNat, entry.ascii)

theorem starts_eq (layout : Layout) : layout.starts = layout.marks.map (·.1) := by
  rw [starts, marks, List.map_map]
  rfl

theorem marks_take (columns : Nat) : (layout.take columns).marks = layout.marks :=
  rfl

theorem marks_placeWhile (reached : Nat → Bool) (columnOf : Nat → Nat) :
    (layout.placeWhile reached columnOf).marks = layout.marks := by
  rw [marks, entries_placeWhile, marks]

theorem marks_openRow (h : offset < 2 ^ 64) (styleStart : Nat) (ascii : Bool) :
    (layout.openRow offset styleStart ascii).marks = layout.marks ++ [(offset, ascii)] := by
  simp only [marks, openRow, Array.toList_push, List.map_append, List.map_singleton]
  rw [UInt64.toNat_ofNat_of_lt' h]

theorem marks_closeRow (softWrapped : Bool) : (layout.closeRow softWrapped).marks = layout.marks := by
  apply List.ext_getElem?
  intro k
  simp only [marks, closeRow, Array.toList_modify, List.getElem?_map, List.getElem?_modify]
  cases layout.entries.toList[k]? with
  | none => rfl
  | some entry =>
    dsimp only [Option.map_eq_map, Option.map_some]
    split <;> rfl

/--
The rows start where the text does and after that at offsets in ascending order, up to `high`. The text
of a row that is marked as 7-bit is so up to the next row, or to `limit` if there is none.
-/
structure Divides (layout : Layout) (contents : ArchiveContents) (high limit : Nat) : Prop where
  head_eq : layout.starts.head? = some contents.text.tail
  sorted : layout.starts.Pairwise (· ≤ ·)
  le_high : ∀ start ∈ layout.starts, start ≤ high
  ascii : ∀ k start, layout.marks[k]? = some (start, true) →
    contents.SevenBit start (layout.starts[k + 1]?.getD limit)

namespace Divides

theorem congr {layout' : Layout} (h : layout.Divides contents offset limit)
    (heq : layout'.marks = layout.marks) : layout'.Divides contents offset limit := by
  have hstarts : layout'.starts = layout.starts := by
    rw [starts_eq, heq, starts_eq]
  exact ⟨hstarts ▸ h.head_eq, hstarts ▸ h.sorted, hstarts ▸ h.le_high, hstarts ▸ heq ▸ h.ascii⟩

theorem mono (h : layout.Divides contents offset limit) (hle : offset ≤ stop) :
    layout.Divides contents stop limit :=
  { h with le_high := fun start hstart => Nat.le_trans (h.le_high start hstart) hle }

theorem placeWhile (h : layout.Divides contents offset limit) (reached : Nat → Bool)
    (columnOf : Nat → Nat) : (layout.placeWhile reached columnOf).Divides contents offset limit :=
  h.congr (marks_placeWhile reached columnOf)

theorem take (h : layout.Divides contents offset limit) (columns : Nat) :
    (layout.take columns).Divides contents offset limit :=
  h.congr (marks_take columns)

theorem openRow {limit' : Nat} (h : layout.Divides contents offset limit) (hle : offset ≤ limit)
    (hoffset : offset < 2 ^ 64) (styleStart : Nat) {ascii : Bool}
    (hascii : ascii = true → contents.SevenBit offset limit') :
    (layout.openRow offset styleStart ascii).Divides contents offset limit' := by
  have hmarks : (layout.openRow offset styleStart ascii).marks = layout.marks ++ [(offset, ascii)] :=
    marks_openRow hoffset styleStart ascii
  have hstarts : (layout.openRow offset styleStart ascii).starts = layout.starts ++ [offset] := by
    rw [starts_eq, hmarks, List.map_append, ← starts_eq, List.map_singleton]
  have hlength : layout.starts.length = layout.marks.length := by
    rw [starts_eq, List.length_map]
  refine ⟨?_, ?_, ?_, ?_⟩
  · rw [hstarts, List.head?_append, h.head_eq, Option.some_or]
  · rw [hstarts, List.pairwise_append]
    refine ⟨h.sorted, List.pairwise_singleton _ _, ?_⟩
    intro start hstart last hlast
    rw [List.mem_singleton.mp hlast]
    exact h.le_high start hstart
  · rw [hstarts, List.forall_mem_append, List.forall_mem_singleton]
    exact ⟨h.le_high, Nat.le_refl offset⟩
  · -- The row that was the newest one ends where the new one starts.
    intro k start hmark
    rw [hmarks] at hmark
    rw [hstarts]
    have hk := (List.getElem?_eq_some_iff.mp hmark).1
    rw [List.length_append, List.length_singleton] at hk
    rcases Nat.lt_trichotomy (k + 1) layout.marks.length with hlt | heq | hgt
    · rw [List.getElem?_append_left (by omega)] at hmark
      rw [List.getElem?_append_left (by omega)]
      have hsound := h.ascii k start hmark
      rwa [List.getElem?_eq_getElem (by omega)] at hsound ⊢
    · rw [List.getElem?_append_left (by omega)] at hmark
      rw [List.getElem?_append_right (by omega), hlength, heq, Nat.sub_self]
      have hsound := h.ascii k start hmark
      rw [List.getElem?_eq_none (by omega)] at hsound
      exact hsound.mono (Nat.le_refl start) hle
    · rw [List.getElem?_append_right (by omega), show k - layout.marks.length = 0 by omega,
        List.getElem?_cons_zero, Option.some.injEq, Prod.mk.injEq] at hmark
      rw [List.getElem?_eq_none (by rw [List.length_append, List.length_singleton]; omega), ← hmark.1]
      exact hascii hmark.2

theorem openRow_first (h : layout.entries = #[]) (hoffset : offset < 2 ^ 64)
    (htail : offset = contents.text.tail) (styleStart : Nat) {ascii : Bool}
    (hascii : ascii = true → contents.SevenBit offset limit) :
    (layout.openRow offset styleStart ascii).Divides contents offset limit := by
  have hmarks : (layout.openRow offset styleStart ascii).marks = [(offset, ascii)] := by
    rw [marks_openRow hoffset, marks, h]
    rfl
  have hstarts : (layout.openRow offset styleStart ascii).starts = [offset] := by
    rw [starts_eq, hmarks, List.map_singleton]
  refine ⟨?_, ?_, ?_, ?_⟩
  · rw [hstarts, htail, List.head?_cons]
  · simp [hstarts]
  · simp [hstarts]
  · intro k start hmark
    rw [hmarks, List.getElem?_singleton] at hmark
    split at hmark
    · next hk =>
      rw [Option.some.injEq, Prod.mk.injEq] at hmark
      rw [hstarts, hk, ← hmark.1]
      exact hascii hmark.2
    · contradiction

theorem openRow_if (h : layout.Divides contents offset limit) (hle : offset ≤ limit)
    (hoffset : offset < 2 ^ 64) (c : Prop) [Decidable c] (styleStart : Nat) {ascii : Bool}
    (hascii : ascii = true → contents.SevenBit offset limit) :
    (if c then layout.openRow offset styleStart ascii else layout).Divides contents offset limit := by
  split
  · exact h.openRow hle hoffset styleStart hascii
  · exact h

theorem addChunks {layout : Layout} {offset : Nat} (h : layout.Divides contents offset limit)
    (run : StyleRun) (hascii : contents.SevenBit offset limit) (hle : offset ≤ stop)
    (hstop : stop ≤ limit) (hlimit : limit < 2 ^ 64) :
    (layout.addChunks run offset stop).Divides contents stop limit := by
  unfold Layout.addChunks
  split
  · next hlt =>
    have h := h.openRow_if (by omega) (by omega) (layout.overflows run.style.columns.toNat) run.entry
      fun _ : true = true => hascii
    dsimp only
    generalize hcount : min _ (stop - offset) = count
    refine addChunks (Divides.mono ?_ (Nat.le_add_right offset count)) run
      (hascii.mono (Nat.le_add_right offset count) (Nat.le_refl limit)) (by omega) hstop hlimit
    exact (h.placeWhile _ _).take _
  · exact h.mono hle
termination_by stop - offset

section

variable {σ : Type} [ByteLog σ] [LawfulLog σ]

theorem yields_addAscii {layout : Layout} {offset : Nat} (h : layout.Divides contents offset limit)
    (head : Nat) (reader : RunReader) (hascii : contents.SevenBit offset limit) (hle : offset ≤ stop)
    (hstop : stop ≤ limit) (hlimit : limit < 2 ^ 64) :
    Archive.Yields (σ := σ) (addAscii head reader layout offset stop) contents
      (·.Divides contents stop limit) := by
  unfold addAscii
  split
  · next hlt =>
    apply (Archive.Yields.runAt head reader offset).bind
    rintro ⟨run, reader⟩ _
    dsimp only
    generalize hrunStop : max (offset + 1) _ = runStop
    refine yields_addAscii ?_ head reader (hascii.mono (by omega) (Nat.le_refl limit)) (by omega) hstop
      hlimit
    split
    · exact (h.placeWhile _ _).mono (by omega)
    · exact h.addChunks run hascii (by omega) (by omega) hlimit
  · exact .pure (h.mono hle)
termination_by stop - offset

theorem yields_addChars (h : layout.Divides contents offset limit) (head : Nat) (reader : RunReader)
    {chars : List Char} (hle : offset + (Text.utf8 chars).length ≤ stop) (hstop : stop ≤ limit)
    (hlimit : limit < 2 ^ 64) :
    Archive.Yields (σ := σ) (addChars head reader layout offset chars) contents
      (·.Divides contents stop limit) := by
  induction chars generalizing reader layout offset with
  | nil => exact .pure (h.mono (Nat.le_of_add_right_le hle))
  | cons char chars ih =>
    rw [Text.length_utf8_cons] at hle
    rw [addChars]
    apply (Archive.Yields.runAt head reader offset).bind
    rintro ⟨run, reader⟩ _
    have h := h.openRow_if (by omega) (by omega)
      (0 < run.style.columns.toNat && layout.overflows run.style.columns.toNat) run.entry
      fun hfalse => absurd hfalse Bool.false_ne_true
    refine ih (((h.placeWhile _ _).take _).mono (Nat.le_add_right offset char.utf8Size)) reader ?_
    omega

theorem yields_addText (h : layout.Divides contents offset limit) (head : Nat) (reader : RunReader)
    (htail : contents.text.tail ≤ offset) (hle : offset ≤ stop) (hstop : stop ≤ limit)
    (hhead : limit ≤ contents.text.head) (hrange : contents.text.head < 2 ^ 64) :
    Archive.Yields (σ := σ) (addText head reader layout offset stop) contents
      (·.Divides contents stop limit) := by
  unfold addText
  apply (Archive.Yields.onLog_read htail (by omega)).bind
  rintro _ rfl
  split
  · exact .throw _
  · next text htext =>
    apply h.yields_addChars head reader _ hstop (by omega)
    have hlength := congrArg List.length (Text.utf8_of_fromUTF8? htext)
    rw [List.data_toByteArray, List.toList_toArray, LogContents.slice, List.length_take] at hlength
    omega

theorem yields_addParagraph {first : RowEntry} {ascii : Bool}
    (h : ∀ styleStart, (layout.openRow first.textStart.toNat styleStart ascii).Divides contents
      first.textStart.toNat limit)
    (hascii : ascii = true → contents.SevenBit first.textStart.toNat limit)
    (htail : contents.text.tail ≤ first.textStart.toNat) (hle : first.textStart.toNat ≤ stop)
    (hstop : stop ≤ limit) (hhead : limit ≤ contents.text.head)
    (hrange : contents.text.head < 2 ^ 64) :
    Archive.Yields (σ := σ) (addParagraph layout first stop ascii) contents
      (·.Divides contents stop limit) := by
  unfold addParagraph
  apply Archive.Yields.get_bind
  intro archive _
  apply (Archive.Yields.runAt _ _ _).bind
  rintro ⟨run, reader⟩ _
  dsimp only
  split
  · next hmarked =>
    exact (h run.entry).yields_addAscii _ reader (hascii hmarked) hle hstop (by omega)
  · exact (h run.entry).yields_addText _ reader htail hle hstop hhead hrange

end

end Divides

end Layout

structure FoundParagraph where
  first : RowEntry
  last : RowEntry
  count : Nat
  textEnd : Nat
  contentEnd : Nat
  ascii : Bool
  deriving DecidableEq

namespace Layout

variable {σ : Type} [ByteLog σ]

def findParagraph (finish index : Nat) : EStateM RingError (Archive σ) FoundParagraph := do
  let first ← Archive.readEntry index
  let (count, last, ascii) ← lastOfParagraph finish index first
  let textEnd ← Archive.textEnd (index + count)
  let contentEnd ←
    if last.softWrapped then
      pure textEnd
    else if last.textStart.toNat < textEnd then
      pure (textEnd - 1)
    else
      throw (.corrupt .row (RowEntry.offsetOf (index + count)))
  return { first, last, count, textEnd, contentEnd, ascii }

theorem addRows_eq (layout : Layout) (index finish : Nat) :
    (layout.addRows index finish : EStateM RingError (Archive σ) Layout)
      =
    if index < finish then
      findParagraph finish index >>= fun found =>
        layout.addParagraph found.first found.contentEnd found.ascii >>= fun layout =>
          addRows ((layout.placeAtEnd found.textEnd).closeRow found.last.softWrapped)
            (index + found.count + 1) finish
    else
      pure layout.placeRest := by
  rw [addRows]
  simp only [findParagraph, bind_assoc]
  split
  · apply bind_congr
    intro first
    apply bind_congr
    rintro ⟨count, last, ascii⟩
    apply bind_congr
    intro textEnd
    dsimp only
    split
    · rfl
    · split
      · rfl
      · rfl
  · rfl

end Layout

theorem StoredRow.exists_placedFrom {low : Nat} (entries : List RowEntry) (text : List UInt8)
    (hhead : (entries.map (·.textStart.toNat)).head? = some low)
    (hsorted : (entries.map (·.textStart.toNat)).Pairwise (· ≤ ·))
    (hle : ∀ start ∈ entries.map (·.textStart.toNat), start ≤ low + text.length) :
    ∃ rows : List StoredRow, rows.map (·.entry) = entries ∧ PlacedFrom low rows
      ∧ text = rows.flatMap bytes := by
  induction entries generalizing low text with
  | nil => simp at hhead
  | cons entry entries ih =>
    rw [List.map_cons, List.head?_cons, Option.some.injEq] at hhead
    cases entries with
    | nil =>
      refine ⟨[⟨entry, text⟩], rfl, ⟨hhead, trivial⟩, ?_⟩
      rw [List.flatMap_cons, List.flatMap_nil, List.append_nil]
    | cons next entries =>
      rw [List.map_cons, List.pairwise_cons] at hsorted
      rw [List.map_cons, List.forall_mem_cons] at hle
      have hlow : entry.textStart.toNat ≤ next.textStart.toNat := hsorted.1 _ List.mem_cons_self
      have hhigh : next.textStart.toNat ≤ low + text.length := hle.2 _ List.mem_cons_self
      have hlength : low + (text.take (next.textStart.toNat - low)).length = next.textStart.toNat := by
        rw [List.length_take]
        omega
      have hrest : ∀ start ∈ (next :: entries).map (·.textStart.toNat),
          start ≤ next.textStart.toNat + (text.drop (next.textStart.toNat - low)).length := by
        intro start hstart
        have := hle.2 start hstart
        rw [List.length_drop]
        omega
      obtain ⟨rows, hrows, hplaced, hbytes⟩ := ih _ rfl hsorted.2 hrest
      refine ⟨⟨entry, text.take (next.textStart.toNat - low)⟩ :: rows, ?_, ⟨hhead, ?_⟩, ?_⟩
      · rw [List.map_cons, hrows]
      · dsimp only
        rwa [hlength]
      · rw [List.flatMap_cons, ← hbytes, List.take_append_drop]

theorem Layout.Divides.exists_stores {layout : Layout} {contents : ArchiveContents}
    (h : layout.Divides contents contents.text.head contents.text.head) (first : Nat) :
    ∃ new : List StoredRow, new.map (·.entry) = layout.entries.toList
      ∧ ∀ after : ArchiveContents, after.text = contents.text →
        after.rows = { tail := RowEntry.offsetOf first,
                       bytes := layout.entries.toList.flatMap RowEntry.encode } →
        after.Stores first new := by
  obtain ⟨new, hnew, hplaced, hbytes⟩ := StoredRow.exists_placedFrom layout.entries.toList
    contents.text.bytes h.head_eq h.sorted h.le_high
  have hascii : ∀ row ∈ new, row.AsciiSound := by
    intro row hrow hascii byte hbyte
    obtain ⟨k, hk⟩ := List.getElem?_of_mem hrow
    obtain ⟨i, hi⟩ := List.getElem?_of_mem hbyte
    have hlt := (List.getElem?_eq_some_iff.mp hi).1
    have hmark : layout.marks[k]? = some (row.start, true) := by
      rw [marks, ← hnew, List.getElem?_map, List.getElem?_map, hk, ← hascii]
      rfl
    have hnext : layout.starts[k + 1]?.getD contents.text.head = row.start + row.bytes.length := by
      rw [← hplaced.next_start_eq hk, ← hbytes, starts, ← hnew, List.getElem?_map,
        List.getElem?_map, Option.map_map]
      rfl
    apply h.ascii k row.start hmark (row.start + i) (Nat.le_add_right _ _)
    · rw [hnext]
      omega
    · rw [hbytes, hplaced.getElem?_flatMap hk hlt]
      exact hi
  refine ⟨new, hnew, fun after htext hrows => ⟨?_, ?_, ?_, hascii⟩⟩
  · rw [hrows, ← hnew, List.flatMap_map]
  · rw [htext, hbytes]
  · rw [htext]
    exact hplaced

namespace ArchiveContents.Stores

open Archive Layout

variable {σ : Type} [ByteLog σ] [LawfulLog σ] {contents : ArchiveContents} {first k : Nat}
  {stored : List StoredRow} {row : StoredRow}

theorem yields_lastOfParagraph {k : Nat} {row : StoredRow} (h : contents.Stores first stored)
    (hrow : stored[k]? = some row) :
    Yields (σ := σ) (lastOfParagraph (first + stored.length) (first + k) row.entry) contents
      fun result => ∃ last, stored[k + result.1]? = some last ∧ result.2.1 = last.entry
        ∧ (result.2.2 = true → contents.SevenBit row.start (last.start + last.bytes.length)) := by
  unfold lastOfParagraph
  split
  · next hnext =>
    have hlt : k + 1 < stored.length := by omega
    obtain ⟨next, hget⟩ : ∃ next, stored[k + 1]? = some next := ⟨_, List.getElem?_eq_getElem hlt⟩
    have hstart : row.start + row.bytes.length = next.start := by
      rw [h.start_add_length hrow, h.start_eq hget]
    rw [Nat.add_assoc]
    apply (h.yields_readEntry hget).bind
    rintro _ rfl
    apply (h.yields_lastOfParagraph hget).bind
    rintro ⟨count, last, ascii⟩ ⟨stored, hstored, hlast, hrest⟩
    refine .pure ⟨stored, ?_, hlast, ?_⟩
    · rw [show k + (count + 1) = k + 1 + count by omega]
      exact hstored
    · intro hascii
      rw [Bool.and_eq_true] at hascii
      exact (hstart ▸ h.sevenBit hrow hascii.1).append (hrest hascii.2)
  · exact .pure ⟨row, hrow, rfl, h.sevenBit hrow⟩
termination_by stored.length - k

theorem start_le_start (h : contents.Stores first stored) (hrow : stored[k]? = some row) {count : Nat}
    {last : StoredRow} (hlast : stored[k + count]? = some last) : row.start ≤ last.start := by
  rw [h.start_eq hrow, h.start_eq hlast]
  exact Nat.add_le_add_left (length_flatMap_take_le _ _ (Nat.le_add_right k count)) _

theorem yields_findParagraph {k : Nat} (h : contents.Stores first stored)
    (hrow : stored[k]? = some row) :
    Yields (σ := σ) (findParagraph (first + stored.length) (first + k)) contents
      fun found => found.first = row.entry
        ∧ (∃ last, stored[k + found.count]? = some last
          ∧ found.textEnd = last.start + last.bytes.length)
        ∧ row.start ≤ found.contentEnd ∧ found.contentEnd ≤ found.textEnd
        ∧ (found.ascii = true → contents.SevenBit row.start found.textEnd) := by
  unfold findParagraph
  apply (h.yields_readEntry hrow).bind
  rintro _ rfl
  apply (h.yields_lastOfParagraph hrow).bind
  rintro ⟨count, _, ascii⟩ ⟨last, hlast, rfl, hascii⟩
  dsimp only at hascii ⊢
  rw [Nat.add_assoc]
  apply (h.yields_textEnd hlast).bind
  rintro _ rfl
  have hle := h.start_le_start hrow hlast
  -- The content ends where the last row does, or before the line break there.
  split
  · exact .pure ⟨rfl, ⟨last, hlast, rfl⟩, by dsimp only; omega, Nat.le_refl _, hascii⟩
  · split
    · next hbreak =>
      change last.start < _ at hbreak
      exact .pure ⟨rfl, ⟨last, hlast, rfl⟩, by dsimp only; omega, Nat.sub_le _ 1, hascii⟩
    · exact (Yields.throw (p := fun _ => False) _).bind fun _ hfalse => hfalse.elim

theorem yields_addRows {k : Nat} {layout : Layout} (h : contents.Stores first stored)
    (hrange : contents.text.head < 2 ^ 64)
    (hstart : ∀ row, stored[k]? = some row → ∀ styleStart ascii limit,
      (ascii = true → contents.SevenBit row.start limit) →
      (layout.openRow row.start styleStart ascii).Divides contents row.start limit)
    (hend : stored.length ≤ k → layout.Divides contents contents.text.head contents.text.head) :
    Yields (σ := σ) (layout.addRows (first + k) (first + stored.length)) contents
      (·.Divides contents contents.text.head contents.text.head) := by
  rw [Layout.addRows_eq]
  split
  · next hlt =>
    have hlt : k < stored.length := by omega
    obtain ⟨row, hrow⟩ : ∃ row, stored[k]? = some row := ⟨_, List.getElem?_eq_getElem hlt⟩
    apply (h.yields_findParagraph hrow).bind
    rintro ⟨_, entry, count, _, stop, ascii⟩ ⟨rfl, ⟨last, hlast, rfl⟩, hlow, hhigh, hascii⟩
    dsimp only at hlast hlow hhigh hascii ⊢
    have hopen := fun styleStart => hstart row hrow styleStart ascii _ hascii
    apply (Divides.yields_addParagraph hopen hascii (h.bounds hrow).1 hlow hhigh (h.bounds hlast).2
      hrange).bind
    intro next hnext
    have hclosed : ((next.placeAtEnd (last.start + last.bytes.length)).closeRow
        entry.softWrapped).Divides contents (last.start + last.bytes.length)
          (last.start + last.bytes.length) :=
      ((hnext.placeWhile _ _).mono hhigh).congr (marks_closeRow _)
    have hlow := (h.bounds hlast).2
    rw [Nat.add_assoc first, Nat.add_assoc first]
    apply h.yields_addRows hrange
    · intro later hlater styleStart ascii limit hascii
      rw [h.start_eq hlater, ← h.start_add_length hlast] at hascii ⊢
      exact hclosed.openRow (Nat.le_refl _) (by omega) styleStart hascii
    · intro hlength
      have hend : last.start + last.bytes.length = contents.text.head := by
        rw [h.start_add_length hlast, List.take_of_length_le hlength, h.head_text]
      rw [hend] at hclosed ⊢
      exact hclosed
  · exact .pure ((hend (by omega)).placeWhile _ _)
termination_by stored.length - k

theorem yields_layout (h : contents.Stores first stored) (hrange : contents.text.head < 2 ^ 64)
    (hne : stored ≠ []) (columns : Nat) (anchors : List Anchor) :
    Yields (σ := σ) ((Layout.ofAnchors columns anchors).addRows first (first + stored.length)) contents
      (·.Divides contents contents.text.head contents.text.head) := by
  have hlength := List.length_pos_iff.mpr hne
  apply h.yields_addRows (k := 0) hrange
  · intro row hrow styleStart ascii limit hascii
    have hstart : row.start = contents.text.tail := by
      rw [h.start_eq hrow, List.take_zero]
      rfl
    exact Divides.openRow_first rfl row.entry.textStart.toNat_lt hstart styleStart hascii
  · omega

end ArchiveContents.Stores

end Scrollback
