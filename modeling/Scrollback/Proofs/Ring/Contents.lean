import Scrollback.Proofs.Archive.Copy
import Scrollback.Proofs.Ring.Edit
import Scrollback.Proofs.Ring.Operation

/-!
This module contains the proof that exporting the text of a ring writes all rows in order, whether
they are frozen or not.
-/

namespace Scrollback

def Sink.Appended (sink : ByteArray) (written : List UInt8) (after : ByteArray) : Prop :=
  after.data.toList = sink.data.toList ++ written

theorem Sink.Appended.eq_append {sink after : ByteArray} {text : List Char}
    (h : Appended sink (Text.utf8 text) after) : after = sink ++ (String.ofList text).toUTF8 := by
  apply ByteArray.ext
  apply Array.ext'
  rw [h, ByteArray.data_append, Array.toList_append, Text.toList_toUTF8, String.toList_ofList]

theorem Sink.tracks_appended (sink : ByteArray) :
    Sink.Tracks (Sink.Appended sink) fun _ => False := by
  intro before bytes next hnext
  change (next ++ bytes).data.toList = _
  rw [ByteArray.data_append, Array.toList_append, hnext, List.append_assoc]

theorem Sink.tracks_true (κ : Type) [Sink κ] :
    Sink.Tracks (fun _ (_ : κ) => True) fun _ => True :=
  fun _ _ _ _ => Ends.of_forall (fun _ _ => trivial) fun _ _ => trivial

namespace Row

theorem text_styled (row : Row) : row.styled.text = row.line := by
  have htext : row.styled.chars.map (·.1) = row.text := by
    unfold styled leads text
    dsimp only
    induction row.cells with
    | nil => rfl
    | cons cell cells ih =>
      rw [List.flatMap_cons, ← ih]
      cases hfragment : cell.fragment with
      | true => simp [hfragment]
      | false => simp [hfragment, Cell.styled, Cell.chars, Function.comp_def]
  rw [StyledLine.text, htext, line]
  change row.text ++ (if row.softWrapped then [] else ['\n']) = _
  split <;> simp

end Row

namespace Ring

variable {σ κ : Type} [Sink κ] {written : List UInt8 → κ → Prop} {Refusal : String → Prop}

def linePieces (rows : List Row) : List ByteArray :=
  rows.map fun row => (String.ofList row.line).toUTF8

theorem flatMap_linePieces (rows : List Row) :
    (linePieces rows).flatMap (·.data.toList) = Text.utf8 (rows.flatMap Row.line) := by
  rw [linePieces, List.flatMap_map, Text.utf8_flatMap]
  apply List.flatMap_congr
  intro row _
  rw [Text.toList_toUTF8, String.toList_ofList]

theorem writeLines_eq (rows : List Row) :
    (writeLines rows : EStateM String κ Unit) = Sink.writeAll (linePieces rows) := by
  induction rows with
  | nil => rfl
  | cons row rows ih =>
    rw [writeLines, ih]
    rfl

theorem ends_writeLines (hwritten : Sink.Tracks written Refusal) (rows : List Row)
    {before : List UInt8} {sink : κ} (hsink : written before sink) :
    Ends (writeLines rows) sink
      (fun _ after => written (before ++ Text.utf8 (rows.flatMap Row.line)) after)
      (fun message _ => Refusal message) := by
  rw [writeLines_eq, ← flatMap_linePieces]
  exact hwritten.ends_writeAll _ hsink

variable [ByteLog σ] [LawfulLog σ] {ring : Ring σ}

namespace Holds

variable {contents : RingContents}

theorem windowRows_eq (h : ring.Holds contents) : ring.windowRows = contents.live := by
  rw [windowRows, h.finish_sub_writable, h.writable_eq, h.window.map_row]

theorem ends_writeTo (h : ring.Holds contents) (hwritten : Sink.Tracks written Refusal) {sink : κ}
    (hsink : written [] sink) :
    Ends (writeTo sink) ring
      (fun sink after => after.Holds contents ∧ written (contents.frozen.flatMap FrozenRow.bytes
        ++ Text.utf8 (contents.live.flatMap Row.line)) sink)
      (fun e after => Archive.IsCopyFailure σ Refusal e ∧ after.Holds contents) := by
  obtain ⟨changes, hholds⟩ := h.archive
  rw [Ring.ends_writeTo]
  apply (Archive.ends_copyText hwritten rfl hsink).imp
  · rintro _ ⟨archive, copied⟩ ⟨harchive, hcopied⟩
    rw [hholds.text_eq] at hcopied
    rw [h.windowRows_eq]
    apply (ends_writeLines hwritten contents.live hcopied).imp
    · exact fun _ sink hsink => ⟨h.withArchive harchive, hsink⟩
    · exact fun message sink hmessage => ⟨Or.inr ⟨message, rfl, hmessage⟩, h.withArchive harchive⟩
  · rintro e copied ⟨he, harchive⟩
    exact ⟨he, h.withArchive harchive⟩

end Holds

end Ring

namespace RingContents.Shows

variable {contents : RingContents} {list : RowList}

theorem rows_eq (h : contents.Shows list) (hlist : list.WellFormed) : contents.rows = list.rows := by
  apply List.ext_getElem h.rows.length_eq
  intro k hk hk'
  exact (h.rows.get hk hk').eq_of_wellFormed (hlist _ (List.getElem_mem hk'))

theorem bytes_eq (h : contents.Shows list) (hlist : list.WellFormed) {frozen : FrozenRow}
    (hfrozen : frozen ∈ contents.frozen) : frozen.bytes = Text.utf8 frozen.line.toRow.line := by
  obtain ⟨k, hk, rfl⟩ := List.getElem_of_mem hfrozen
  have hlength := h.rows.length_eq
  rw [RingContents.rows, List.length_append, List.length_map] at hlength
  obtain ⟨row, hrow⟩ : ∃ row, list.rows[k]? = some row :=
    ⟨_, List.getElem?_eq_getElem (by omega)⟩
  have hwellFormed := hlist row (List.mem_of_getElem? hrow)
  rw [FrozenRow.bytes, h.line_eq k _ row (List.getElem?_eq_getElem hk) hrow hwellFormed,
    hwellFormed.toRow_styled, Row.text_styled]

theorem text_eq (h : contents.Shows list) (hlist : list.WellFormed) :
    contents.frozen.flatMap FrozenRow.bytes ++ Text.utf8 (contents.live.flatMap Row.line)
      =
    Text.utf8 (list.rows.flatMap Row.line) := by
  rw [← h.rows_eq hlist, RingContents.rows, List.flatMap_append, Text.utf8_append, List.flatMap_map,
    Text.utf8_flatMap contents.frozen, List.flatMap_congr fun _ => h.bytes_eq hlist]

end RingContents.Shows

theorem Ring.Shows.ends_writeTo {σ κ : Type} [ByteLog σ] [LawfulLog σ] [Sink κ] {ring : Ring σ}
    {list : RowList} (h : ring.Shows list) (hlist : list.WellFormed)
    {written : List UInt8 → κ → Prop} {Refusal : String → Prop}
    (hwritten : Sink.Tracks written Refusal) {sink : κ} (hsink : written [] sink) :
    Ends (writeTo sink) ring
      (fun sink after => after.Shows list ∧ written (Text.utf8 (list.rows.flatMap Row.line)) sink)
      (fun e after => Archive.IsCopyFailure σ Refusal e ∧ after.Shows list) := by
  obtain ⟨contents, hholds, hcontents⟩ := h
  apply (hholds.ends_writeTo hwritten hsink).imp
  · rintro sink after ⟨hafter, hsink⟩
    rw [hcontents.text_eq hlist] at hsink
    exact ⟨⟨contents, hafter, hcontents⟩, hsink⟩
  · rintro e after ⟨he, hafter⟩
    exact ⟨he, contents, hafter, hcontents⟩

end Scrollback
