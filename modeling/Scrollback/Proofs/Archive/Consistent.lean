import Scrollback.Proofs.Archive.Freeze
import Scrollback.Proofs.Archive.Relayout

/-!
This module contains what the three logs of an archive hold byte by byte: entries that can be decoded,
in order, and that divide the text log into the texts of the frozen rows.
-/

namespace Scrollback

theorem Text.bounds_of_isPrintable {text : List Char} (h : ∀ char ∈ text, IsPrintable char) :
    ∀ byte ∈ utf8 text, 32 ≤ byte ∧ byte ≤ 126 := by
  simp only [utf8, List.forall_mem_flatMap]
  intro char hchar byte hbyte
  obtain ⟨hlow, hhigh⟩ := h char hchar
  rw [String.utf8EncodeChar_eq_singleton (h char hchar).utf8Size_eq, List.mem_singleton] at hbyte
  have hlow : 32 ≤ char.val.toNat := UInt32.le_iff_toNat_le.mp hlow
  have hhigh : char.val.toNat ≤ 126 := UInt32.le_iff_toNat_le.mp hhigh
  have hval : byte.toNat = char.val.toNat := by
    rw [hbyte, UInt32.toNat_toUInt8]
    omega
  rw [UInt8.le_iff_toNat_le, UInt8.le_iff_toNat_le, hval]
  exact ⟨hlow, hhigh⟩

theorem FrozenRow.bytes_eq (row : FrozenRow) :
    row.bytes
      =
    Text.utf8 (row.line.chars.map (·.1)) ++ if row.line.softWrapped then [] else [10] := by
  have hbreak : Text.utf8 ['\n'] = [10] := by decide
  rw [bytes, StyledLine.text, Text.utf8_append]
  cases row.line.softWrapped <;> simp [hbreak]

namespace ArchiveContents

def rowStop (contents : ArchiveContents) (entries : List RowEntry) (k : Nat) : Nat :=
  entries[k + 1]?.elim contents.text.head (·.textStart.toNat)

def rowText (contents : ArchiveContents) (entries : List RowEntry) (k : Nat) (entry : RowEntry) :
    List UInt8 :=
  contents.text.slice entry.textStart.toNat
    (contents.rowStop entries k - entry.textStart.toNat)

/--
The row log holds the given entries for the rows from `start` to before `writable`, the attribute log
holds the given changes of style, and they agree with each other and with the text log.
-/
structure Consistent (contents : ArchiveContents) (start writable : Nat) (entries : List RowEntry)
    (changes : List StyleChange) : Prop where
  tail_rows : contents.rows.tail = RowEntry.offsetOf start
  head_rows : contents.rows.head = RowEntry.offsetOf writable
  length_entries : start + entries.length = writable
  decode?_entry : ∀ k entry, entries[k]? = some entry →
    RowEntry.decode? (contents.rows.slice (RowEntry.offsetOf (start + k)) RowEntry.size) = some entry
  textStart_sorted : entries.Pairwise (·.textStart.toNat ≤ ·.textStart.toNat)
  textStart_head : ∀ entry ∈ entries.head?, entry.textStart.toNat = contents.text.tail
  textStart_le : ∀ entry ∈ entries, entry.textStart.toNat ≤ contents.text.head
  isValidUTF8 : ∀ k entry, entries[k]? = some entry →
    (contents.rowText entries k entry).toByteArray.IsValidUTF8
  lineBreak : ∀ k entry, entries[k]? = some entry → entry.softWrapped = false →
    (contents.rowText entries k entry).getLast? = some 10
  text_nil : entries = [] → contents.text.bytes = []
  text_eq : contents.text.bytes
    = entries.zipIdx.flatMap fun (entry, k) => contents.rowText entries k entry
  length_attributes : contents.attributes.bytes.length = changes.length * StyleChange.size
  decode?_change : ∀ k change, changes[k]? = some change →
    StyleChange.decode? (contents.attributes.slice
      (contents.attributes.tail + k * StyleChange.size) StyleChange.size) = some change
  textEnd_increasing : changes.Pairwise (·.textEnd.toNat < ·.textEnd.toNat)
  textEnd_last : ∀ last ∈ changes.getLast?, last.textEnd.toNat = contents.openRun.start
  openRun_le : contents.openRun.start ≤ contents.text.head
  styleStart_bounds : ∀ entry ∈ entries, contents.attributes.tail ≤ entry.styleStart.toNat
    ∧ entry.styleStart.toNat ≤ contents.attributes.head
  styleStart_sorted : entries.Pairwise (·.styleStart.toNat ≤ ·.styleStart.toNat)
  textEnd_le : ∀ entry ∈ entries, ∀ k change, changes[k]? = some change →
    contents.attributes.tail + k * StyleChange.size < entry.styleStart.toNat →
    change.textEnd.toNat ≤ entry.textStart.toNat
  ascii : ∀ k entry, entries[k]? = some entry → entry.ascii = true →
    ∀ byte ∈ if entry.softWrapped then contents.rowText entries k entry
      else (contents.rowText entries k entry).dropLast,
      32 ≤ byte ∧ byte ≤ 126

namespace Holds

variable {contents : ArchiveContents} {first : Nat} {frozen : List FrozenRow}
  {changes : List StyleChange}

theorem rowText_eq (h : contents.Holds first frozen changes) {k : Nat} {row : FrozenRow}
    (hrow : frozen[k]? = some row) :
    contents.rowText (frozen.map (·.entry)) k row.entry = row.bytes := by
  have hstop : contents.rowStop (frozen.map (·.entry)) k = row.start + row.bytes.length := by
    rw [rowStop, List.getElem?_map, h.start_add_length hrow]
    cases hnext : frozen[k + 1]? with
    | none =>
      rw [List.getElem?_eq_none_iff] at hnext
      rw [List.take_of_length_le hnext, ← h.head_text]
      rfl
    | some next => exact h.start_eq hnext
  rw [rowText, hstop, ← FrozenRow.start, Nat.add_sub_cancel_left]
  exact h.slice_text hrow

theorem flatMap_rowText_eq (h : contents.Holds first frozen changes) :
    ((frozen.map (·.entry)).zipIdx.flatMap fun (entry, k) =>
        contents.rowText (frozen.map (·.entry)) k entry)
      =
    frozen.flatMap FrozenRow.bytes := by
  calc
    _ = frozen.zipIdx.flatMap fun (row, _) => row.bytes := by
      rw [List.zipIdx_map, List.flatMap_map]
      apply List.flatMap_congr
      rintro ⟨row, k⟩ hmem
      exact h.rowText_eq (List.mem_zipIdx_iff_getElem?.mp hmem)
    _ = (frozen.zipIdx.map (·.1)).flatMap FrozenRow.bytes := by
      rw [List.flatMap_map]
    _ = frozen.flatMap FrozenRow.bytes := by
      rw [List.zipIdx_map_fst]

theorem consistent (h : contents.Holds first frozen changes) :
    contents.Consistent first (first + frozen.length) (frozen.map (·.entry)) changes := by
  have hentry {k : Nat} {entry : RowEntry} (hk : (frozen.map (·.entry))[k]? = some entry) :
      ∃ row, frozen[k]? = some row ∧ row.entry = entry := by
    rwa [List.getElem?_map, Option.map_eq_some_iff] at hk
  have hstart : frozen.Pairwise (·.start ≤ ·.start) := h.placed.pairwise.2
  constructor
  · rw [h.rows_eq]
  · exact h.head_rows
  · rw [List.length_map]
  · intro k entry hk
    obtain ⟨row, hrow, rfl⟩ := hentry hk
    rw [h.slice_rows hrow]
    exact row.entry.decode?_encode
  · exact List.pairwise_map.mpr hstart
  · intro entry hhead
    rw [List.head?_eq_getElem?, Option.mem_def] at hhead
    obtain ⟨row, hrow, rfl⟩ := hentry hhead
    exact h.start_eq hrow
  · rw [List.forall_mem_map]
    intro row hrow
    obtain ⟨k, hk⟩ := List.getElem?_of_mem hrow
    have := (h.bounds hk).2
    exact Nat.le_trans (Nat.le_add_right _ _) this
  · intro k entry hk
    obtain ⟨row, hrow, rfl⟩ := hentry hk
    rw [h.rowText_eq hrow, FrozenRow.bytes, Text.toByteArray_utf8]
    exact ⟨_, rfl⟩
  · intro k entry hk hsoft
    obtain ⟨row, hrow, rfl⟩ := hentry hk
    rw [h.softWrapped_eq hrow] at hsoft
    rw [h.rowText_eq hrow, FrozenRow.bytes_eq, hsoft]
    simp
  · intro hnil
    rw [List.map_eq_nil_iff] at hnil
    rw [h.text_eq, hnil, List.flatMap_nil]
  · rw [h.flatMap_rowText_eq, h.text_eq]
  · exact h.holdsRuns.length_eq
  · intro k change hk
    obtain ⟨hlt, rfl⟩ := List.getElem?_eq_some_iff.mp hk
    exact h.holdsRuns.decode?_eq k hlt
  · exact h.runs.increasing
  · exact fun last hlast => (h.runs.start_eq last hlast).symm
  · exact h.runs.start_le_high
  · rw [List.forall_mem_map]
    intro row hrow
    obtain ⟨count, -, heq, -⟩ := h.located row hrow
    exact ⟨heq ▸ Nat.le_add_right _ _, h.styleStart_le hrow⟩
  · exact List.pairwise_map.mpr h.sorted
  · rw [List.forall_mem_map]
    intro row hrow k change hk hlt
    obtain ⟨count, -, heq, htake⟩ := h.located row hrow
    rw [heq] at hlt
    have hlt : k < count := Nat.lt_of_mul_lt_mul_right (Nat.lt_of_add_lt_add_left hlt)
    apply htake
    apply List.mem_of_getElem?
    rw [List.getElem?_take_of_lt hlt]
    exact hk
  · intro k entry hk hascii
    obtain ⟨row, hrow, rfl⟩ := hentry hk
    have hprintable := h.ascii row (List.mem_of_getElem? hrow) hascii
    have hcontent : (if row.entry.softWrapped then row.bytes else row.bytes.dropLast)
        = Text.utf8 (row.line.chars.map (·.1)) := by
      rw [h.softWrapped_eq hrow, FrozenRow.bytes_eq]
      cases row.line.softWrapped <;> simp
    rw [h.rowText_eq hrow, hcontent]
    apply Text.bounds_of_isPrintable
    rw [List.forall_mem_map]
    exact hprintable

end Holds

end ArchiveContents

end Scrollback
