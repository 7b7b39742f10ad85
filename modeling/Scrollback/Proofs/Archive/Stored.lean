import Scrollback.Proofs.Archive.Contents
import Scrollback.Proofs.Archive.Encoding
import Scrollback.Proofs.Pieces

/-!
This module contains what the row log and the text log say about frozen rows: the entries divide the
text into the texts of the rows. The attribute log has no part in it and may hold anything.
-/

namespace Scrollback

structure StoredRow where
  entry : RowEntry
  bytes : List UInt8
  deriving DecidableEq

namespace StoredRow

def start (row : StoredRow) : Nat :=
  row.entry.textStart.toNat

def PlacedFrom (offset : Nat) : List StoredRow → Prop
  | [] => True
  | row :: rows => row.start = offset ∧ PlacedFrom (offset + row.bytes.length) rows

def AsciiSound (row : StoredRow) : Prop :=
  row.entry.ascii = true → ∀ byte ∈ row.bytes, byte < 128

theorem placedFrom_append {offset : Nat} {rows rows' : List StoredRow} :
    PlacedFrom offset (rows ++ rows')
      ↔
    PlacedFrom offset rows ∧ PlacedFrom (offset + (rows.flatMap bytes).length) rows' := by
  induction rows generalizing offset with
  | nil => simp [PlacedFrom]
  | cons row rows ih =>
    simp only [List.cons_append, PlacedFrom, ih, List.flatMap_cons, List.length_append,
      Nat.add_assoc, and_assoc]

theorem PlacedFrom.drop {offset : Nat} {rows : List StoredRow} (h : PlacedFrom offset rows)
    (k : Nat) : PlacedFrom (offset + ((rows.take k).flatMap bytes).length) (rows.drop k) := by
  rw [← List.take_append_drop k rows, placedFrom_append] at h
  exact h.2

theorem PlacedFrom.take {offset : Nat} {rows : List StoredRow} (h : PlacedFrom offset rows)
    (k : Nat) : PlacedFrom offset (rows.take k) := by
  rw [← List.take_append_drop k rows, placedFrom_append] at h
  exact h.1

theorem PlacedFrom.start_eq {offset k : Nat} {rows : List StoredRow} {row : StoredRow}
    (h : PlacedFrom offset rows) (hrow : rows[k]? = some row) :
    row.start = offset + ((rows.take k).flatMap bytes).length := by
  obtain ⟨hk, rfl⟩ := List.getElem?_eq_some_iff.mp hrow
  have hplaced := h.drop k
  rw [List.drop_eq_getElem_cons hk] at hplaced
  exact hplaced.1

theorem PlacedFrom.start_add_length {offset k : Nat} {rows : List StoredRow} {row : StoredRow}
    (h : PlacedFrom offset rows) (hrow : rows[k]? = some row) :
    row.start + row.bytes.length = offset + ((rows.take (k + 1)).flatMap bytes).length := by
  obtain ⟨hk, rfl⟩ := List.getElem?_eq_some_iff.mp hrow
  rw [h.start_eq hrow, List.take_succ_eq_append_getElem hk, List.flatMap_append,
    List.length_append]
  simp [Nat.add_assoc]

theorem PlacedFrom.next_start_eq {offset k : Nat} {rows : List StoredRow} {row : StoredRow}
    (h : PlacedFrom offset rows) (hrow : rows[k]? = some row) :
    (rows[k + 1]?.map start).getD (offset + (rows.flatMap bytes).length)
      =
    row.start + row.bytes.length := by
  rw [h.start_add_length hrow]
  cases hnext : rows[k + 1]? with
  | some next => exact h.start_eq hnext
  | none =>
    rw [List.take_of_length_le (List.getElem?_eq_none_iff.mp hnext)]
    rfl

theorem PlacedFrom.getElem?_flatMap {offset k : Nat} {rows : List StoredRow} {row : StoredRow}
    (h : PlacedFrom offset rows) (hrow : rows[k]? = some row) {i : Nat} (hi : i < row.bytes.length) :
    (rows.flatMap bytes)[row.start + i - offset]? = row.bytes[i]? := by
  conv =>
    rhs
    rw [← take_drop_flatMap bytes hrow]
  rw [List.getElem?_take_of_lt hi, List.getElem?_drop, h.start_eq hrow, Nat.add_assoc,
    Nat.add_sub_cancel_left]

theorem length_encode_entry (row : StoredRow) : row.entry.encode.length = RowEntry.size :=
  RowEntry.length_encode row.entry

end StoredRow

theorem RowEntry.offsetOf_le {index index' : Nat} (h : index ≤ index') :
    offsetOf index ≤ offsetOf index' :=
  Nat.mul_le_mul_right size h

theorem RowEntry.offsetOf_add_sub (first k : Nat) :
    offsetOf (first + k) - offsetOf first = k * size := by
  rw [offsetOf, offsetOf, ← Nat.sub_mul, Nat.add_sub_cancel_left]

namespace ArchiveContents

/--
The row log and the text log hold the frozen rows `stored`, the first of which has index `first`.
-/
structure Stores (contents : ArchiveContents) (first : Nat) (stored : List StoredRow) : Prop where
  rows_eq : contents.rows
    = { tail := RowEntry.offsetOf first, bytes := stored.flatMap (·.entry.encode) }
  text_eq : contents.text.bytes = stored.flatMap StoredRow.bytes
  placed : StoredRow.PlacedFrom contents.text.tail stored
  ascii : ∀ row ∈ stored, row.AsciiSound

def SevenBit (contents : ArchiveContents) (low high : Nat) : Prop :=
  ∀ place, low ≤ place → place < high →
    ∀ byte ∈ contents.text.bytes[place - contents.text.tail]?, byte < 128

theorem SevenBit.mono {contents : ArchiveContents} {low low' high high' : Nat}
    (h : contents.SevenBit low high) (hlow : low ≤ low') (hhigh : high' ≤ high) :
    contents.SevenBit low' high' :=
  fun place hle hlt => h place (Nat.le_trans hlow hle) (Nat.lt_of_lt_of_le hlt hhigh)

theorem SevenBit.append {contents : ArchiveContents} {low between high : Nat}
    (h : contents.SevenBit low between) (h' : contents.SevenBit between high) :
    contents.SevenBit low high := by
  intro place hle hlt
  by_cases hplace : place < between
  · exact h place hle hplace
  · exact h' place (Nat.not_lt.mp hplace) hlt

theorem SevenBit.slice {contents : ArchiveContents} {low high : Nat} (h : contents.SevenBit low high)
    (htail : contents.text.tail ≤ low) :
    ∀ byte ∈ contents.text.slice low (high - low), byte < 128 := by
  intro byte hbyte
  obtain ⟨i, hi⟩ := List.getElem?_of_mem hbyte
  have hlt := (List.getElem?_eq_some_iff.mp hi).1
  rw [LogContents.slice, List.length_take] at hlt
  rw [LogContents.slice, List.getElem?_take_of_lt (by omega), List.getElem?_drop] at hi
  apply h (low + i) (Nat.le_add_right low i) (by omega)
  rw [Nat.sub_add_comm htail]
  exact hi

def SameText (contents after : ArchiveContents) : Prop :=
  after.rows = contents.rows ∧ after.text = contents.text

theorem SameText.refl (contents : ArchiveContents) : contents.SameText contents :=
  ⟨rfl, rfl⟩

theorem SameText.trans {contents next after : ArchiveContents} (h : contents.SameText next)
    (h' : next.SameText after) : contents.SameText after :=
  ⟨h'.1.trans h.1, h'.2.trans h.2⟩

namespace Stores

open Archive

variable {contents after : ArchiveContents} {first k : Nat} {stored : List StoredRow}
  {row : StoredRow}

theorem of_sameText (h : contents.Stores first stored) (hsame : contents.SameText after) :
    after.Stores first stored where
  rows_eq := hsame.1.trans h.rows_eq
  text_eq := (congrArg LogContents.bytes hsame.2).trans h.text_eq
  placed := hsame.2 ▸ h.placed
  ascii := h.ascii

theorem head_rows (h : contents.Stores first stored) :
    contents.rows.head = RowEntry.offsetOf (first + stored.length) := by
  rw [h.rows_eq, LogContents.head, length_flatMap_of_forall StoredRow.length_encode_entry]
  simp only [RowEntry.offsetOf, Nat.add_mul]

theorem head_text (h : contents.Stores first stored) :
    contents.text.head = contents.text.tail + (stored.flatMap StoredRow.bytes).length := by
  rw [LogContents.head, h.text_eq]

theorem slice_rows (h : contents.Stores first stored) (hrow : stored[k]? = some row) :
    contents.rows.slice (RowEntry.offsetOf (first + k)) RowEntry.size = row.entry.encode := by
  rw [LogContents.slice, h.rows_eq, RowEntry.offsetOf_add_sub]
  exact take_drop_flatMap_mul StoredRow.length_encode_entry hrow

theorem start_eq (h : contents.Stores first stored) (hrow : stored[k]? = some row) :
    row.start = contents.text.tail + ((stored.take k).flatMap StoredRow.bytes).length :=
  h.placed.start_eq hrow

theorem start_add_length (h : contents.Stores first stored) (hrow : stored[k]? = some row) :
    row.start + row.bytes.length
      =
    contents.text.tail + ((stored.take (k + 1)).flatMap StoredRow.bytes).length :=
  h.placed.start_add_length hrow

theorem bounds (h : contents.Stores first stored) (hrow : stored[k]? = some row) :
    contents.text.tail ≤ row.start ∧ row.start + row.bytes.length ≤ contents.text.head := by
  have : ((stored.take (k + 1)).flatMap StoredRow.bytes).length
      ≤ (stored.flatMap StoredRow.bytes).length := by
    rw [← take_flatMap, List.length_take]
    omega
  have hstart := h.start_eq hrow
  have hfinish := h.start_add_length hrow
  rw [h.head_text]
  omega

theorem slice_text (h : contents.Stores first stored) (hrow : stored[k]? = some row) :
    contents.text.slice row.start row.bytes.length = row.bytes := by
  rw [LogContents.slice, h.start_eq hrow, Nat.add_sub_cancel_left, h.text_eq]
  exact take_drop_flatMap StoredRow.bytes hrow

theorem sevenBit (h : contents.Stores first stored) (hrow : stored[k]? = some row)
    (hascii : row.entry.ascii = true) :
    contents.SevenBit row.start (row.start + row.bytes.length) := by
  intro place hle hlt byte hbyte
  apply h.ascii row (List.mem_of_getElem? hrow) hascii
  have hplace := h.placed.getElem?_flatMap hrow (i := place - row.start) (by omega)
  rw [Nat.add_sub_of_le hle, ← h.text_eq] at hplace
  exact List.mem_of_getElem? (hplace.symm.trans hbyte)

theorem none (index text attributes : Nat) :
    ArchiveContents.Stores
      { rows := { tail := RowEntry.offsetOf index, bytes := [] }
        text := { tail := text, bytes := [] }
        attributes := { tail := attributes, bytes := [] }
        openRun := { start := text } }
      index [] where
  rows_eq := rfl
  text_eq := rfl
  placed := trivial
  ascii := by simp

theorem append (h : contents.Stores first stored) (hstart : row.start = contents.text.head)
    (hascii : row.AsciiSound) (hrows : after.rows = contents.rows.append row.entry.encode)
    (htext : after.text = contents.text.append row.bytes) :
    after.Stores first (stored ++ [row]) := by
  constructor
  · rw [hrows, h.rows_eq]
    simp [LogContents.append]
  · rw [htext]
    simp [LogContents.append, h.text_eq]
  · rw [htext, StoredRow.placedFrom_append]
    exact ⟨h.placed, hstart.trans h.head_text, trivial⟩
  · rw [List.forall_mem_append, List.forall_mem_singleton]
    exact ⟨h.ascii, hascii⟩

theorem truncate (h : contents.Stores first stored) (hrow : stored[k]? = some row)
    (hrows : after.rows = contents.rows.truncate (RowEntry.offsetOf (first + k)))
    (htext : after.text = contents.text.truncate row.start) :
    after.Stores first (stored.take k) := by
  have hlength : (stored.take k).length = k :=
    List.length_take_of_le (Nat.le_of_lt (List.getElem?_eq_some_iff.mp hrow).1)
  constructor
  · have htake := take_flatMap (fun row : StoredRow => row.entry.encode) stored k
    rw [length_flatMap_of_forall StoredRow.length_encode_entry, hlength] at htake
    rw [hrows, LogContents.truncate, h.rows_eq, RowEntry.offsetOf_add_sub, htake]
  · rw [htext, LogContents.truncate, h.text_eq, h.start_eq hrow, Nat.add_sub_cancel_left]
    exact take_flatMap StoredRow.bytes stored k
  · rw [htext]
    exact h.placed.take k
  · exact fun old hold => h.ascii old (List.mem_of_mem_take hold)

theorem advanceTails (h : contents.Stores first stored) (hrow : stored[k]? = some row) :
    (contents.advanceTails (first + k) row.entry).Stores (first + k) (stored.drop k) := by
  have hk := (List.getElem?_eq_some_iff.mp hrow).1
  have hbounds := h.bounds hrow
  have hrows := contents.rows.advanceTail_eq (RowEntry.offsetOf (first + k))
    (by rw [h.rows_eq]; exact RowEntry.offsetOf_le (Nat.le_add_right first k))
    (by rw [h.head_rows]; exact RowEntry.offsetOf_le (by omega))
  have htext := contents.text.advanceTail_eq row.start hbounds.1 (by omega)
  constructor
  · have hdrop := drop_flatMap (fun row : StoredRow => row.entry.encode) stored k
    rw [length_flatMap_of_forall StoredRow.length_encode_entry,
      List.length_take_of_le (Nat.le_of_lt hk)] at hdrop
    rw [ArchiveContents.advanceTails, hrows, h.rows_eq]
    dsimp only
    rw [RowEntry.offsetOf_add_sub, hdrop]
  · rw [ArchiveContents.advanceTails, ← StoredRow.start, htext, h.text_eq, h.start_eq hrow,
      Nat.add_sub_cancel_left]
    exact drop_flatMap StoredRow.bytes stored k
  · rw [ArchiveContents.advanceTails, ← StoredRow.start, htext, h.start_eq hrow]
    exact h.placed.drop k
  · exact fun old hold => h.ascii old (List.mem_of_mem_drop hold)

section

variable {σ : Type} [ByteLog σ] [LawfulLog σ]

theorem reads_readEntry (h : contents.Stores first stored) (hrow : stored[k]? = some row) :
    Reads (σ := σ) (readEntry (first + k)) contents row.entry := by
  have hk := (List.getElem?_eq_some_iff.mp hrow).1
  unfold readEntry
  apply Reads.bind
  · apply Reads.onLog_read
    · rw [ArchiveContents.log, h.rows_eq]
      exact RowEntry.offsetOf_le (Nat.le_add_right first k)
    · rw [ArchiveContents.log, h.head_rows, RowEntry.offsetOf, RowEntry.offsetOf, ← Nat.succ_mul]
      exact Nat.mul_le_mul_right _ (by omega)
  · rw [ArchiveContents.log, h.slice_rows hrow, List.data_toByteArray, List.toList_toArray,
      RowEntry.decode?_encode]
    exact Reads.pure _

theorem reads_textEnd (h : contents.Stores first stored) (hrow : stored[k]? = some row) :
    Reads (σ := σ) (textEnd (first + k)) contents (row.start + row.bytes.length) := by
  have hk := (List.getElem?_eq_some_iff.mp hrow).1
  unfold textEnd
  apply Reads.get_bind
  intro archive harchive
  rw [Archive.head_rows, Archive.head_text, harchive, h.head_rows, h.start_add_length hrow]
  cases hnext : stored[k + 1]? with
  | none =>
    rw [List.getElem?_eq_none_iff] at hnext
    have : stored.length = k + 1 := by omega
    rw [if_pos (Nat.le_of_eq (by rw [this, Nat.add_assoc])), h.head_text, ← this,
      List.take_length]
    exact Reads.pure _
  | some next =>
    have hlt := (List.getElem?_eq_some_iff.mp hnext).1
    rw [if_neg]
    · rw [← h.start_eq hnext, Nat.add_assoc]
      exact Reads.bind (h.reads_readEntry hnext) (Reads.pure _)
    · simp only [RowEntry.offsetOf, RowEntry.size]
      omega

end

end Stores

end ArchiveContents

end Scrollback
