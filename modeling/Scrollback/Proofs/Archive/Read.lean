import Scrollback.Archive.Read
import Scrollback.Proofs.Archive.Holds
import Scrollback.Proofs.Archive.Reader

/-!
This module contains the proof that reading a frozen row gives back the row that the logs hold.
-/

namespace Scrollback

namespace ArchiveContents.Holds

open Archive

variable {σ : Type} [ByteLog σ] [LawfulLog σ] {contents : ArchiveContents} {first : Nat}
  {frozen : List FrozenRow} {changes : List StyleChange}

theorem stored_getElem? {k : Nat} {row : FrozenRow} (hrow : frozen[k]? = some row) :
    (frozen.map FrozenRow.stored)[k]? = some row.stored := by
  rw [List.getElem?_map, hrow, Option.map_some]

theorem head_rows (h : contents.Holds first frozen changes) :
    contents.rows.head = RowEntry.offsetOf (first + frozen.length) := by
  rw [h.stores.head_rows, List.length_map]

theorem head_text (h : contents.Holds first frozen changes) :
    contents.text.head = contents.text.tail + (frozen.flatMap FrozenRow.bytes).length := by
  rw [LogContents.head, h.text_eq]

theorem slice_rows (h : contents.Holds first frozen changes) {k : Nat} {row : FrozenRow}
    (hrow : frozen[k]? = some row) :
    contents.rows.slice (RowEntry.offsetOf (first + k)) RowEntry.size = row.entry.encode :=
  h.stores.slice_rows (stored_getElem? hrow)

theorem slice_attributes (h : contents.Holds first frozen changes) {k : Nat} {change : StyleChange}
    (hchange : changes[k]? = some change) :
    contents.attributes.slice (contents.attributes.tail + k * StyleChange.size) StyleChange.size
      =
    change.encode := by
  rw [LogContents.slice, Nat.add_sub_cancel_left, h.attributes_eq]
  exact take_drop_flatMap_mul StyleChange.length_encode hchange

theorem reads_readEntry (h : contents.Holds first frozen changes) {k : Nat} {row : FrozenRow}
    (hrow : frozen[k]? = some row) :
    Reads (σ := σ) (readEntry (first + k)) contents row.entry :=
  h.stores.reads_readEntry (stored_getElem? hrow)

theorem holdsRuns (h : contents.Holds first frozen changes) :
    contents.attributes.HoldsRuns changes contents.openRun where
  toChained := h.runs.toChained
  length_eq := by rw [h.attributes_eq, length_flatMap_of_forall StyleChange.length_encode]
  decode?_eq k hk := by
    rw [h.slice_attributes (List.getElem?_eq_getElem hk)]
    exact StyleChange.decode?_encode (h.runs.flagsDefined _ (List.getElem_mem hk))

theorem head_attributes (h : contents.Holds first frozen changes) :
    contents.attributes.head
      =
    contents.attributes.tail + changes.length * StyleChange.size :=
  h.holdsRuns.head_eq

theorem reads_readChange (h : contents.Holds first frozen changes) {k : Nat} {change : StyleChange}
    (hchange : changes[k]? = some change) :
    Reads (σ := σ) (readChange (contents.attributes.tail + k * StyleChange.size)) contents
      change :=
  h.holdsRuns.reads_readChange hchange

theorem start_eq (h : contents.Holds first frozen changes) {k : Nat} {row : FrozenRow}
    (hrow : frozen[k]? = some row) :
    row.start = contents.text.tail + ((frozen.take k).flatMap FrozenRow.bytes).length :=
  (h.placed.getElem? hrow).1

theorem softWrapped_eq_of_mem (h : contents.Holds first frozen changes) {row : FrozenRow}
    (hrow : row ∈ frozen) : row.entry.softWrapped = row.line.softWrapped :=
  (FrozenRow.placedFrom_iff.mp h.placed).2 row hrow

theorem softWrapped_eq (h : contents.Holds first frozen changes) {k : Nat} {row : FrozenRow}
    (hrow : frozen[k]? = some row) : row.entry.softWrapped = row.line.softWrapped :=
  h.softWrapped_eq_of_mem (List.mem_of_getElem? hrow)

theorem start_add_length (h : contents.Holds first frozen changes) {k : Nat} {row : FrozenRow}
    (hrow : frozen[k]? = some row) :
    row.start + row.bytes.length
      =
    contents.text.tail + ((frozen.take (k + 1)).flatMap FrozenRow.bytes).length := by
  rw [← FrozenRow.flatMap_bytes_stored, List.map_take]
  exact h.stores.start_add_length (stored_getElem? hrow)

theorem bounds (h : contents.Holds first frozen changes) {k : Nat} {row : FrozenRow}
    (hrow : frozen[k]? = some row) :
    contents.text.tail ≤ row.start ∧ row.start + row.bytes.length ≤ contents.text.head :=
  h.stores.bounds (stored_getElem? hrow)

theorem slice_text (h : contents.Holds first frozen changes) {k : Nat} {row : FrozenRow}
    (hrow : frozen[k]? = some row) :
    contents.text.slice row.start row.bytes.length = row.bytes :=
  h.stores.slice_text (stored_getElem? hrow)

theorem reads_textEnd (h : contents.Holds first frozen changes) {k : Nat} {row : FrozenRow}
    (hrow : frozen[k]? = some row) :
    Reads (σ := σ) (textEnd (first + k)) contents (row.start + row.bytes.length) :=
  h.stores.reads_textEnd (stored_getElem? hrow)

theorem ready_start (h : contents.Holds first frozen changes) {row : FrozenRow} (hrow : row ∈ frozen) :
    RunReader.Ready contents.attributes changes contents.openRun row.start
      { next := row.entry.styleStart.toNat, openRun := contents.openRun } := by
  obtain ⟨count, hcount, hstart, htake⟩ := h.located row hrow
  rw [hstart]
  exact RunReader.ready_start hcount htake

theorem reads_runAt (h : contents.Holds first frozen changes) {reader : RunReader} {offset : Nat}
    (hlow : contents.text.tail ≤ offset)
    (hready : reader.Ready contents.attributes changes contents.openRun offset) :
    ∃ reader', reader'.Ready contents.attributes changes contents.openRun offset
      ∧ Reads (σ := σ) (runAt contents.attributes.head reader offset) contents
        (styleRunAt contents.attributes.tail changes contents.openRun offset, reader') :=
  h.holdsRuns.reads_runAt (h.runs.start_le_of_nil hlow) hready

theorem reads_readGlyphs (h : contents.Holds first frozen changes) {reader : RunReader}
    {offset : Nat} (hlow : contents.text.tail ≤ offset)
    (hready : reader.Ready contents.attributes changes contents.openRun offset) (row : Row)
    {chars : List (Char × Style)}
    (hstyled : StyledBy (styleAt changes contents.openRun) offset chars) :
    Reads (σ := σ) (readGlyphs contents.attributes.head reader offset row (chars.map (·.1))) contents
      (chars.foldl (fun row char => row.pushGlyph char.1 char.2) row) := by
  induction chars generalizing reader offset row with
  | nil => exact Reads.pure _
  | cons char chars ih =>
    obtain ⟨reader', hready', hreads⟩ := reads_runAt (σ := σ) h hlow hready
    rw [List.map_cons, readGlyphs, List.foldl_cons]
    apply Reads.bind hreads
    dsimp only
    rw [style_styleRunAt, hstyled.1]
    exact ih (by omega) (hready'.mono (by omega)) _ hstyled.2

theorem rowText?_eq {bytes : ByteArray} (line : StyledLine)
    (h : bytes.data.toList = Text.utf8 line.text) :
    rowText? bytes line.softWrapped = some (line.chars.map (·.1)) := by
  unfold rowText?
  unfold StyledLine.text at h
  split
  · next hsoft =>
    rw [hsoft, if_pos rfl, List.append_nil] at h
    rw [Text.fromUTF8?_eq h]
    simp
  · next hsoft =>
    rw [if_neg hsoft, Text.utf8_append] at h
    have hbreak : Text.utf8 ['\n'] = [10] := by decide
    rw [hbreak] at h
    have hsize : bytes.size = (Text.utf8 (line.chars.map (·.1))).length + 1 := by
      rw [← ByteArray.size_data, ← Array.length_toList, h]
      simp
    -- The line break is the last byte and the text is all bytes before it.
    have hlast : bytes[bytes.size - 1]? = some 10 := by
      have hlt : bytes.size - 1 < bytes.size := by omega
      rw [getElem?_pos bytes _ hlt, ByteArray.getElem_eq_getElem_data, ← Array.getElem_toList]
      simp only [h, hsize, Nat.add_sub_cancel]
      simp
    have hextract : (bytes.extract 0 (bytes.size - 1)).data.toList
        = Text.utf8 (line.chars.map (·.1)) := by
      rw [ByteArray.data_extract, Array.toList_extract, h, hsize]
      simp [List.extract_eq_take_drop]
    rw [if_pos hlast, Text.fromUTF8?_eq hextract]
    simp

theorem reads_read (h : contents.Holds first frozen changes) {k : Nat} {row : FrozenRow}
    (hrow : frozen[k]? = some row) :
    Reads (σ := σ) (read (first + k)) contents (row.entry, row.line.toRow) := by
  have hmem := List.mem_of_getElem? hrow
  obtain ⟨htail, hhead⟩ := h.bounds hrow
  unfold Archive.read
  apply Reads.bind (h.reads_readEntry hrow)
  apply Reads.bind (h.reads_textEnd hrow)
  have hstart : row.entry.textStart.toNat = row.start := rfl
  rw [hstart, if_neg (by omega)]
  dsimp only
  rw [Nat.add_sub_cancel_left]
  apply Reads.bind (Reads.onLog_read htail hhead)
  rw [ArchiveContents.log, h.slice_text hrow, h.softWrapped_eq hrow,
    rowText?_eq row.line (by simp [FrozenRow.bytes])]
  apply Reads.get_bind
  intro archive harchive
  have hopen : archive.openRun = contents.openRun := by
    rw [← harchive]
    rfl
  rw [hopen, Archive.head_attributes, harchive]
  apply Reads.bind
  · apply h.reads_readGlyphs htail (h.ready_start hmem) _ (h.styled row hmem)
  · exact Reads.pure _

end ArchiveContents.Holds

end Scrollback
