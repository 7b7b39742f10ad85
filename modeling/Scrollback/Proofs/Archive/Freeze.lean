import Scrollback.Archive.Freeze
import Scrollback.Proofs.Archive.Draft
import Scrollback.Proofs.Archive.Read

/-!
This module contains the proof that freezing a row appends it to the rows that the archive holds.
-/

namespace Scrollback

namespace ArchiveContents

def freeze (contents : ArchiveContents) (row : Row) : ArchiveContents :=
  let draft := Draft.ofRow contents.openRun contents.text.head row
  let entry := draft.entry contents.text.head contents.attributes.head row.softWrapped
  { rows := contents.rows.append entry.encode
    text := contents.text.append draft.text.toUTF8.data.toList
    attributes := contents.attributes.append draft.changeBytes
    openRun := draft.run }

theorem head_text_le_freeze (contents : ArchiveContents) (row : Row) :
    contents.text.head ≤ (contents.freeze row).text.head := by
  simp only [freeze, LogContents.head_append]
  omega

theorem head_attributes_le_freeze (contents : ArchiveContents) (row : Row) :
    contents.attributes.head ≤ (contents.freeze row).attributes.head := by
  simp only [freeze, LogContents.head_append]
  omega

theorem InRange.of_freeze {contents : ArchiveContents} {row : Row}
    (h : (contents.freeze row).InRange) : contents.InRange :=
  ⟨Nat.lt_of_le_of_lt (contents.head_text_le_freeze row) h.1,
    Nat.lt_of_le_of_lt (contents.head_attributes_le_freeze row) h.2⟩

namespace Holds

variable {contents : ArchiveContents} {first : Nat} {frozen : List FrozenRow}
  {changes : List StyleChange}

theorem styleStart_le (h : contents.Holds first frozen changes) {row : FrozenRow}
    (hrow : row ∈ frozen) : row.entry.styleStart.toNat ≤ contents.attributes.head := by
  obtain ⟨count, hcount, heq, -⟩ := h.located row hrow
  rw [heq, h.head_attributes]
  exact Nat.add_le_add_left (Nat.mul_le_mul_right _ hcount) _

theorem append_draft (h : contents.Holds first frozen changes) {row : Row} {draft : Draft}
    {entry : RowEntry} {text : List UInt8}
    (hflags : row.FlagsDefined)
    (hfollows : draft.Follows contents.text.tail contents.text.head changes contents.openRun
      row.styled.chars)
    (hascii : entry.ascii = true → ∀ char ∈ row.styled.chars, Text.IsPrintable char.1)
    (hentry : entry.textStart.toNat = contents.text.head ∧ entry.softWrapped = row.softWrapped
      ∧ entry.styleStart.toNat = contents.attributes.head
        + draft.leading.getD draft.changes.length * StyleChange.size)
    (htext : text = Text.utf8 row.styled.text) :
    ArchiveContents.Holds
      { rows := contents.rows.append entry.encode
        text := contents.text.append text
        attributes := contents.attributes.append draft.changeBytes
        openRun := draft.run }
      first (frozen ++ [{ entry, line := row.styled }]) (changes ++ draft.changes) := by
  have hlength : styledSize row.styled.chars ≤ text.length := by
    simp [htext, StyledLine.text, styledSize]
  have hleading := hfollows.forall_take_leading
  constructor
  · simp [LogContents.append, h.rows_eq]
  · simp [LogContents.append, h.text_eq, htext, FrozenRow.bytes]
  · simp [LogContents.append, h.attributes_eq, Draft.changeBytes]
  · apply hfollows.runs.grow
    rw [LogContents.head_append]
    omega
  · rw [FrozenRow.placedFrom_append]
    refine ⟨h.placed, ?_, ?_, trivial⟩
    · rw [FrozenRow.start, hentry.1, h.head_text]
      rfl
    · exact hentry.2.1
  · rw [List.forall_mem_append, List.forall_mem_singleton]
    refine ⟨?_, ?_⟩
    · intro old hold
      obtain ⟨k, hk⟩ := List.getElem?_of_mem hold
      have hbounds := h.bounds hk
      have hsize := old.styledSize_le
      apply (h.styled old hold).congr
      intro place hle hlt
      exact hfollows.earlier place (by omega) (by omega)
    · rw [FrozenRow.start, hentry.1]
      exact hfollows.styled
  · rw [List.forall_mem_append, List.forall_mem_singleton]
    refine ⟨?_, ?_⟩
    · exact fun old hold => (h.located old hold).append draft.changes
    · -- Every change before the first glyph ends the run of the text before the row.
      refine ⟨changes.length + draft.leading.getD draft.changes.length, ?_, ?_, ?_⟩
      · rw [List.length_append]
        omega
      · rw [hentry.2.2, h.head_attributes, Nat.add_mul, Nat.add_assoc]
        rfl
      · rw [List.take_length_add_append, List.forall_mem_append, FrozenRow.start, hentry.1]
        refine ⟨?_, hleading.2⟩
        intro change hchange
        have hend := h.runs.textEnd_le_start hchange
        have hhigh := h.runs.start_le_high
        omega
  · rw [List.pairwise_append]
    refine ⟨h.sorted, List.pairwise_singleton _ _, ?_⟩
    intro old hold new hnew
    rw [List.mem_singleton] at hnew
    have := h.styleStart_le hold
    rw [hnew]
    dsimp only
    rw [hentry.2.2]
    omega
  · rw [List.forall_mem_append, List.forall_mem_singleton]
    exact ⟨h.ascii, hascii⟩
  · rw [List.forall_mem_append, List.forall_mem_singleton]
    exact ⟨h.flagsDefined, hflags.styled⟩

theorem freeze_draft (h : contents.Holds first frozen changes) {row : Row}
    (hflags : row.FlagsDefined) (hrange : (contents.freeze row).InRange) :
    ∃ entry, entry.textStart.toNat = contents.text.head
      ∧ (contents.freeze row).Holds first (frozen ++ [{ entry, line := row.styled }])
        (changes ++ (Draft.ofRow contents.openRun contents.text.head row).changes) := by
  have htext := Draft.text_ofRow contents.openRun contents.text.head row
  have hbytes : (Draft.ofRow contents.openRun contents.text.head row).text.toUTF8.data.toList
      = Text.utf8 row.styled.text := by
    rw [Text.toList_toUTF8, htext]
  obtain ⟨hrangeText, hrangeAttributes⟩ := hrange
  simp only [ArchiveContents.freeze, LogContents.head_append, hbytes] at hrangeText
  obtain ⟨draft, hfollows, hdraft⟩ :=
    Draft.exists_follows h.runs (Nat.le_add_right _ _) hflags hrangeText
  have hclose : (draft.close row.softWrapped).run = draft.run
      ∧ (draft.close row.softWrapped).changes = draft.changes
      ∧ (draft.close row.softWrapped).leading = draft.leading := by
    unfold Draft.close
    split <;> simp
  have hleading := hfollows.forall_take_leading.1
  have hascii := Draft.ascii_ofRow contents.openRun contents.text.head row
  simp only [ArchiveContents.freeze, LogContents.head_append, Draft.changeBytes,
    length_flatMap_of_forall StyleChange.length_encode] at hrangeAttributes
  rw [hdraft, hclose.2.1] at hrangeAttributes
  have htextStart : ((draft.close row.softWrapped).entry contents.text.head
      contents.attributes.head row.softWrapped).textStart.toNat = contents.text.head := by
    apply UInt64.toNat_ofNat_of_lt'
    change contents.text.head < 2 ^ 64
    omega
  refine ⟨_, htextStart, ?_⟩
  unfold ArchiveContents.freeze
  dsimp only
  rw [hdraft] at hbytes hascii ⊢
  have hchanges : (draft.close row.softWrapped).changeBytes = draft.changeBytes := by
    rw [Draft.changeBytes, hclose.2.1]
    rfl
  rw [hclose.1, hclose.2.1, hchanges]
  apply h.append_draft hflags hfollows
  · exact hascii
  · refine ⟨htextStart, rfl, ?_⟩
    · simp only [Draft.entry, hclose.2.1, hclose.2.2]
      apply UInt64.toNat_ofNat_of_lt'
      have := Nat.mul_le_mul_right StyleChange.size hleading
      change contents.attributes.head
        + draft.leading.getD draft.changes.length * StyleChange.size < 2 ^ 64
      omega
  · exact hbytes

theorem freeze (h : contents.Holds first frozen changes) {row : Row} (hflags : row.FlagsDefined)
    (hrange : (contents.freeze row).InRange) :
    ∃ entry changes', (contents.freeze row).Holds first
      (frozen ++ [{ entry, line := row.styled }]) (changes ++ changes') := by
  obtain ⟨entry, -, hholds⟩ := h.freeze_draft hflags hrange
  exact ⟨entry, _, hholds⟩

end Holds

end ArchiveContents

namespace Archive

variable {σ : Type} [ByteLog σ] [LawfulLog σ]

theorem ends_onLog_append (archive : Archive σ) (name : LogName) (bytes : ByteArray) :
    Ends (onLog name (ByteLog.append bytes)) archive
      (fun _ after => after.contents = archive.contents.append bytes.data.toList name)
      (fun e after => IsFault σ e ∧ after.contents = archive.contents) := by
  rw [ends_onLog]
  apply (LawfulLog.append_law (archive.log name) bytes).imp
  · rintro _ after ⟨-, hafter⟩
    cases name
    all_goals
      simp only [contents, setLog, ArchiveContents.append, hafter, log]
  · rintro e after ⟨he, hafter⟩
    exact ⟨isFault_log he, contents_setLog archive hafter⟩

theorem ends_appendDraft (archive : Archive σ) (draft : Draft) (entry : RowEntry) :
    Ends (appendDraft draft entry) archive
      (fun _ after => after.contents
        = { rows := archive.contents.rows.append entry.encode
            text := archive.contents.text.append draft.text.toUTF8.data.toList
            attributes := archive.contents.attributes.append draft.changeBytes
            openRun := archive.contents.openRun })
      (fun e after => IsFault σ e ∧ after.contents.rows = archive.contents.rows
        ∧ after.contents.text.truncate archive.contents.text.head = archive.contents.text
        ∧ after.contents.attributes.truncate archive.contents.attributes.head
          = archive.contents.attributes) := by
  -- If a log fails, only the text and the changes that were appended before have to be cut off.
  unfold appendDraft
  rw [ends_bind, ends_discard]
  apply (ends_onLog_append archive .attribute _).imp
  · intro _ after hattributes
    rw [ends_bind, ends_discard]
    apply (ends_onLog_append after .text _).imp
    · intro _ after' htext
      rw [ends_discard]
      apply (ends_onLog_append after' .row _).imp
      · intro _ after'' hrows
        simp only [hrows, htext, hattributes, ArchiveContents.append, List.data_toByteArray,
          List.toList_toArray]
      · rintro e after'' ⟨he, hafter⟩
        simp only [hafter, htext, hattributes]
        exact ⟨he, rfl, LogContents.truncate_append_head _ _,
          LogContents.truncate_append_head _ _⟩
    · rintro e after' ⟨he, hafter⟩
      simp only [hafter, hattributes]
      exact ⟨he, rfl, LogContents.truncate_head _, LogContents.truncate_append_head _ _⟩
  · rintro e after ⟨he, hafter⟩
    simp only [hafter]
    exact ⟨he, trivial, LogContents.truncate_head _, LogContents.truncate_head _⟩

theorem ends_freeze (archive : Archive σ) (row : Row) :
    Ends (freeze row) archive
      (fun _ after => after.contents = archive.contents.freeze row)
      (fun e after => IsFault σ e ∧ after.contents = archive.contents) := by
  unfold Ends freeze
  dsimp only
  rw [head_text, head_attributes]
  generalize hdraft : Draft.ofRow _ _ _ = draft
  have h := ends_appendDraft { archive with openRun := draft.run } draft
    (draft.entry archive.contents.text.head archive.contents.attributes.head row.softWrapped)
  unfold Ends at h
  split at h
  · next heq =>
    rw [heq]
    dsimp only
    rw [h, ArchiveContents.freeze]
    simp only [contents] at hdraft ⊢
    rw [hdraft]
  · next e after heq =>
    obtain ⟨he, hrows, htext, hattributes⟩ := h
    rw [heq]
    refine ⟨he, ?_⟩
    simp only [contents, ArchiveContents.mk.injEq, LawfulLog.contents_truncate]
    exact ⟨hrows, htext, hattributes, trivial⟩

end Archive

end Scrollback
