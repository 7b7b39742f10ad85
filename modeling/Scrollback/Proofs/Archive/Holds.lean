import Scrollback.Proofs.Archive.Runs
import Scrollback.Proofs.Archive.Stored
import Scrollback.Proofs.Row.Styled

/-!
This module contains the invariant of the archive: what its logs hold when it is the archive of a
list of frozen rows.
-/

namespace Scrollback

structure FrozenRow where
  entry : RowEntry
  line : StyledLine

namespace FrozenRow

def bytes (row : FrozenRow) : List UInt8 :=
  Text.utf8 row.line.text

def start (row : FrozenRow) : Nat :=
  row.entry.textStart.toNat

def stored (row : FrozenRow) : StoredRow where
  entry := row.entry
  bytes := row.bytes

def PlacedFrom (offset : Nat) : List FrozenRow → Prop
  | [] => True
  | row :: rows =>
    row.start = offset ∧ row.entry.softWrapped = row.line.softWrapped
      ∧ PlacedFrom (offset + row.bytes.length) rows

/--
Whether the entry of the row points at a change of style, or at the head of the attribute log, such
that no change before it ends a run within the text of the row. `tail` is the offset of the first
change.
-/
def Located (tail : Nat) (changes : List StyleChange) (row : FrozenRow) : Prop :=
  ∃ count ≤ changes.length, row.entry.styleStart.toNat = tail + count * StyleChange.size
    ∧ ∀ change ∈ changes.take count, change.textEnd.toNat ≤ row.start

namespace Located

variable {tail count : Nat} {changes : List StyleChange} {row : FrozenRow}

theorem append (h : row.Located tail changes) (later : List StyleChange) :
    row.Located tail (changes ++ later) := by
  obtain ⟨count, hcount, heq, htake⟩ := h
  refine ⟨count, ?_, heq, ?_⟩
  · rw [List.length_append]
    omega
  · rwa [List.take_append_of_le_length hcount]

theorem take (h : row.Located tail changes)
    (hle : row.entry.styleStart.toNat ≤ tail + count * StyleChange.size) :
    row.Located tail (changes.take count) := by
  obtain ⟨count', hcount', heq, htake⟩ := h
  rw [heq] at hle
  have hle := Nat.le_of_mul_le_mul_right (Nat.le_of_add_le_add_left hle) (by decide)
  refine ⟨count', ?_, heq, ?_⟩
  · rw [List.length_take]
    omega
  · rwa [List.take_take, Nat.min_eq_left hle]

theorem drop (h : row.Located tail changes)
    (hle : tail + count * StyleChange.size ≤ row.entry.styleStart.toNat) :
    row.Located (tail + count * StyleChange.size) (changes.drop count) := by
  obtain ⟨count', hcount', heq, htake⟩ := h
  rw [heq] at hle
  have hle := Nat.le_of_mul_le_mul_right (Nat.le_of_add_le_add_left hle) (by decide)
  refine ⟨count' - count, ?_, ?_, ?_⟩
  · rw [List.length_drop]
    omega
  · rw [heq, Nat.add_assoc, ← Nat.add_mul, Nat.add_sub_cancel' hle]
  · intro change hchange
    rw [List.take_drop, Nat.add_sub_cancel' hle] at hchange
    exact htake change (List.mem_of_mem_drop hchange)

end Located

theorem flatMap_bytes_stored (rows : List FrozenRow) :
    (rows.map stored).flatMap StoredRow.bytes = rows.flatMap bytes := by
  rw [List.flatMap_map]
  rfl

theorem placedFrom_iff {offset : Nat} {rows : List FrozenRow} :
    PlacedFrom offset rows
      ↔
    StoredRow.PlacedFrom offset (rows.map FrozenRow.stored)
      ∧ ∀ row ∈ rows, row.entry.softWrapped = row.line.softWrapped := by
  induction rows generalizing offset with
  | nil => simp [PlacedFrom, StoredRow.PlacedFrom]
  | cons row rows ih =>
    rw [PlacedFrom, ih, List.map_cons, StoredRow.PlacedFrom, List.forall_mem_cons, and_assoc]
    exact and_congr_right' and_left_comm

theorem placedFrom_append {offset : Nat} {rows rows' : List FrozenRow} :
    PlacedFrom offset (rows ++ rows')
      ↔
    PlacedFrom offset rows ∧ PlacedFrom (offset + (rows.flatMap bytes).length) rows' := by
  rw [placedFrom_iff, placedFrom_iff, placedFrom_iff, List.map_append, StoredRow.placedFrom_append,
    flatMap_bytes_stored, List.forall_mem_append]
  exact and_and_and_comm

theorem PlacedFrom.getElem? {offset : Nat} {rows : List FrozenRow} (h : PlacedFrom offset rows)
    {k : Nat} {row : FrozenRow} (hrow : rows[k]? = some row) :
    row.start = offset + ((rows.take k).flatMap bytes).length
      ∧ row.entry.softWrapped = row.line.softWrapped := by
  obtain ⟨hplaced, hsoft⟩ := placedFrom_iff.mp h
  have hstored : (rows.map stored)[k]? = some row.stored := by
    rw [List.getElem?_map, hrow]
    rfl
  have hstart := hplaced.start_eq hstored
  rw [← List.map_take, flatMap_bytes_stored] at hstart
  exact ⟨hstart, hsoft row (List.mem_of_getElem? hrow)⟩

theorem styledSize_le (row : FrozenRow) : styledSize row.line.chars ≤ row.bytes.length := by
  simp [FrozenRow.bytes, StyledLine.text, styledSize]

end FrozenRow

theorem StyledLine.forall_mem_utf8_lt {line : StyledLine}
    (h : ∀ char ∈ line.chars, Text.IsPrintable char.1) : ∀ byte ∈ Text.utf8 line.text, byte < 128 := by
  apply Text.forall_mem_utf8_lt
  rw [text, List.forall_mem_append, List.forall_mem_map]
  refine ⟨?_, ?_⟩
  · intro char hchar
    exact Nat.lt_of_le_of_lt (UInt32.le_iff_toNat_le.mp (h char hchar).2) (by decide)
  · split
    · simp
    · rw [List.forall_mem_singleton]
      decide

namespace ArchiveContents

/--
The archive holds the frozen rows `frozen`, the first of which has index `first`. The attribute log
holds `changes`.
-/
structure Holds (contents : ArchiveContents) (first : Nat) (frozen : List FrozenRow)
    (changes : List StyleChange) : Prop where
  rows_eq : contents.rows
    = { tail := RowEntry.offsetOf first, bytes := frozen.flatMap (·.entry.encode) }
  text_eq : contents.text.bytes = frozen.flatMap FrozenRow.bytes
  attributes_eq : contents.attributes.bytes = changes.flatMap StyleChange.encode
  runs : Runs contents.text.tail changes contents.openRun contents.text.head
  placed : FrozenRow.PlacedFrom contents.text.tail frozen
  styled : ∀ row ∈ frozen, StyledBy (styleAt changes contents.openRun) row.start row.line.chars
  located : ∀ row ∈ frozen, row.Located contents.attributes.tail changes
  sorted : frozen.Pairwise (·.entry.styleStart.toNat ≤ ·.entry.styleStart.toNat)
  ascii : ∀ row ∈ frozen, row.entry.ascii = true → ∀ char ∈ row.line.chars, Text.IsPrintable char.1
  flagsDefined : ∀ row ∈ frozen, row.line.FlagsDefined

theorem Holds.stores {contents : ArchiveContents} {first : Nat} {frozen : List FrozenRow}
    {changes : List StyleChange} (h : contents.Holds first frozen changes) :
    contents.Stores first (frozen.map FrozenRow.stored) where
  rows_eq := by
    rw [h.rows_eq, List.flatMap_map]
    rfl
  text_eq := by rw [h.text_eq, FrozenRow.flatMap_bytes_stored]
  placed := (FrozenRow.placedFrom_iff.mp h.placed).1
  ascii := by
    rw [List.forall_mem_map]
    exact fun row hrow hascii => StyledLine.forall_mem_utf8_lt (h.ascii row hrow hascii)

namespace Stores

variable {contents : ArchiveContents} {first : Nat} {frozen : List FrozenRow}

theorem rows_map (h : contents.Stores first (frozen.map FrozenRow.stored)) :
    contents.rows
      =
    { tail := RowEntry.offsetOf first, bytes := frozen.flatMap (·.entry.encode) } := by
  rw [h.rows_eq, List.flatMap_map]
  rfl

theorem text_map (h : contents.Stores first (frozen.map FrozenRow.stored)) :
    contents.text.bytes = frozen.flatMap FrozenRow.bytes := by
  rw [h.text_eq, FrozenRow.flatMap_bytes_stored]

theorem placed_map (h : contents.Stores first (frozen.map FrozenRow.stored))
    (hsoft : ∀ row ∈ frozen, row.entry.softWrapped = row.line.softWrapped) :
    FrozenRow.PlacedFrom contents.text.tail frozen :=
  FrozenRow.placedFrom_iff.mpr ⟨h.placed, hsoft⟩

end Stores

end ArchiveContents

end Scrollback
