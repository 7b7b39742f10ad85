import Scrollback.Archive.Thaw
import Scrollback.Proofs.Archive.Freeze
import Scrollback.Proofs.Row.Text

/-!
This module contains what the actions on an archive do to the text of its rows. They may find entries
of the attribute log that cannot be read, but that changes nothing about the text.
-/

namespace Scrollback

def StoredRow.ShownAs (stored : StoredRow) (row : Row) : Prop :=
  stored.bytes = Text.utf8 row.line ∧ stored.entry.softWrapped = row.softWrapped

namespace Archive

variable {σ α β : Type} [ByteLog σ] [LawfulLog σ] {contents : ArchiveContents} {p : α → Prop}
  {q : β → Prop}

/--
The action leaves the row log and the text log as they are in `contents`, and returns what `p` says if
it succeeds. The attribute log may hold anything.
-/
def Yields (action : EStateM RingError (Archive σ) α) (contents : ArchiveContents) (p : α → Prop) :
    Prop :=
  ∀ archive : Archive σ, contents.SameText archive.contents →
    Ends action archive (fun a after => p a ∧ contents.SameText after.contents)
      (fun _ after => contents.SameText after.contents)

namespace Yields

theorem pure {a : α} (h : p a) :
    Yields (pure a : EStateM RingError (Archive σ) α) contents p :=
  fun _ hsame => ⟨h, hsame⟩

theorem throw (e : RingError) : Yields (throw e : EStateM RingError (Archive σ) α) contents p :=
  fun _ hsame => hsame

theorem bind {action : EStateM RingError (Archive σ) α} {f : α → EStateM RingError (Archive σ) β}
    (haction : Yields action contents p) (hf : ∀ a, p a → Yields (f a) contents q) :
    Yields (action >>= f) contents q := by
  intro archive hsame
  rw [ends_bind]
  apply (haction archive hsame).imp
  · exact fun a after hafter => hf a hafter.1 after hafter.2
  · exact fun e after hafter => hafter

theorem get_bind {f : Archive σ → EStateM RingError (Archive σ) β}
    (hf : ∀ archive : Archive σ, contents.SameText archive.contents → Yields (f archive) contents q) :
    Yields (get >>= f) contents q := by
  intro archive hsame
  rw [ends_bind, ends_get]
  exact hf archive hsame archive hsame

theorem imp {p' : α → Prop} {action : EStateM RingError (Archive σ) α} (h : Yields action contents p)
    (hp : ∀ a, p a → p' a) : Yields action contents p' := by
  intro archive hsame
  apply (h archive hsame).imp
  · exact fun a after hafter => ⟨hp a hafter.1, hafter.2⟩
  · exact fun e after hafter => hafter

theorem of_reads {action : EStateM RingError (Archive σ) α} {a : α}
    (h : ∀ contents', contents.SameText contents' → Reads action contents' a) :
    Yields action contents (· = a) := by
  intro archive hsame
  apply (h archive.contents hsame archive rfl).imp
  · exact fun b after hafter => ⟨hafter.1, hafter.2 ▸ hsame⟩
  · exact fun e after herr => herr.2 ▸ hsame

theorem onLog_read {offset size : Nat} (htail : contents.text.tail ≤ offset)
    (hhead : offset + size ≤ contents.text.head) :
    Yields (σ := σ) (onLog .text (ByteLog.read offset size)) contents
      (· = (contents.text.slice offset size).toByteArray) := by
  apply of_reads
  intro contents' hsame
  rw [← hsame.2] at htail hhead ⊢
  exact Reads.onLog_read htail hhead

theorem onLog_attribute (action : EStateM LogError σ α) :
    Yields (onLog .attribute action) contents fun _ => True := by
  intro archive hsame
  rw [ends_onLog]
  exact Ends.of_forall (fun _ _ => ⟨trivial, hsame⟩) fun _ _ => hsame

theorem readChange (offset : Nat) :
    Yields (readChange offset : EStateM RingError (Archive σ) StyleChange) contents
      fun _ => True := by
  unfold Archive.readChange
  apply (onLog_attribute _).bind
  intro bytes _
  split
  · exact pure trivial
  · exact throw _

theorem runAt (head : Nat) (reader : RunReader) (offset : Nat) :
    Yields (runAt head reader offset : EStateM RingError (Archive σ) (StyleRun × RunReader)) contents
      fun _ => True := by
  unfold Archive.runAt
  split
  · exact pure trivial
  · split
    · exact pure trivial
    · split
      · exact throw _
      · apply (readChange _).bind
        exact fun change _ => runAt head _ offset
termination_by head - reader.next
decreasing_by
  simp only [StyleChange.size]
  omega

theorem readGlyphs (head : Nat) (reader : RunReader) (offset : Nat) (row : Row) (chars : List Char) :
    Yields (readGlyphs head reader offset row chars : EStateM RingError (Archive σ) Row) contents
      fun after => after.text = row.text ++ chars ∧ after.softWrapped = row.softWrapped := by
  -- Whatever run is found for a character, the character is appended to the text.
  induction chars generalizing reader offset row with
  | nil => exact pure ⟨(List.append_nil row.text).symm, rfl⟩
  | cons char chars ih =>
    rw [Archive.readGlyphs]
    apply (runAt head reader offset).bind
    rintro ⟨run, reader⟩ _
    apply (ih reader _ _).imp
    rintro after ⟨htext, hsoft⟩
    rw [Row.text_pushGlyph, List.append_assoc] at htext
    exact ⟨htext, hsoft.trans (row.softWrapped_pushGlyph char run.style)⟩

theorem reopenedRun (head cut entry start : Nat) :
    Yields (reopenedRun head cut entry start : EStateM RingError (Archive σ) (Nat × Option OpenRun))
      contents fun _ => True := by
  unfold Archive.reopenedRun
  split
  · apply (readChange _).bind
    intro change _
    split
    · exact pure trivial
    · exact reopenedRun head cut _ _
  · exact pure trivial
termination_by head - entry
decreasing_by
  simp only [StyleChange.size]
  omega

end Yields

end Archive

namespace ArchiveContents.Stores

open Archive

variable {σ : Type} [ByteLog σ] [LawfulLog σ] {contents : ArchiveContents} {first k : Nat}
  {stored : List StoredRow} {row : StoredRow}

theorem yields_readEntry (h : contents.Stores first stored) (hrow : stored[k]? = some row) :
    Yields (σ := σ) (readEntry (first + k)) contents (· = row.entry) :=
  .of_reads fun _ hsame => (h.of_sameText hsame).reads_readEntry hrow

theorem yields_textEnd (h : contents.Stores first stored) (hrow : stored[k]? = some row) :
    Yields (σ := σ) (textEnd (first + k)) contents (· = row.start + row.bytes.length) :=
  .of_reads fun _ hsame => (h.of_sameText hsame).reads_textEnd hrow

theorem yields_read (h : contents.Stores first stored) (hrow : stored[k]? = some row) :
    Yields (σ := σ) (read (first + k)) contents
      fun result => result.1 = row.entry ∧ row.ShownAs result.2 := by
  obtain ⟨htail, hhead⟩ := h.bounds hrow
  unfold Archive.read
  apply (h.yields_readEntry hrow).bind
  rintro _ rfl
  apply (h.yields_textEnd hrow).bind
  rintro _ rfl
  dsimp only
  rw [← StoredRow.start, if_neg (Nat.not_lt.mpr (Nat.le_add_right _ _)), Nat.add_sub_cancel_left]
  apply (Yields.onLog_read htail hhead).bind
  rintro _ rfl
  rw [h.slice_text hrow]
  split
  · exact .throw _
  · next chars htext =>
    have hbytes := utf8_of_rowText? htext
    rw [List.data_toByteArray, List.toList_toArray] at hbytes
    apply Yields.get_bind
    intro archive _
    apply (Yields.readGlyphs _ _ _ _ chars).bind
    rintro shown ⟨hshown, hsoft⟩
    refine .pure ⟨rfl, ?_, hsoft.symm⟩
    rw [Row.line, hshown, hsoft]
    exact hbytes

theorem freeze (h : contents.Stores first stored) {new : Row} (hrange : (contents.freeze new).InRange) :
    ∃ row, (contents.freeze new).Stores first (stored ++ [row]) := by
  let draft := Draft.ofRow contents.openRun contents.text.head new
  refine ⟨{
    entry := draft.entry contents.text.head contents.attributes.head new.softWrapped
    bytes := draft.text.toUTF8.data.toList }, h.append ?_ ?_ rfl rfl⟩
  · exact UInt64.toNat_ofNat_of_lt' hrange.of_freeze.1
  · intro hascii
    dsimp only
    rw [Text.toList_toUTF8, Draft.text_ofRow]
    exact StyledLine.forall_mem_utf8_lt (Draft.ascii_ofRow _ _ _ hascii)

theorem ends_rewind (archive : Archive σ) (h : archive.contents.Stores first stored)
    (hrow : stored[k]? = some row) :
    Ends (Archive.rewind (first + k) row.entry) archive
      (fun _ after => after.contents.Stores first (stored.take k))
      (fun _ after => archive.contents.SameText after.contents) := by
  -- The changes of style that are looked at only decide on where the attribute log is cut.
  have hcut (start : Nat) (next : Archive σ) (hnext : archive.contents.SameText next.contents) :
      Ends
        (reopenedRun (ByteLog.head archive.attributes) row.start row.entry.styleStart.toNat start
          >>= fun result =>
            modify fun archive => {
              rows := ByteLog.truncate archive.rows (RowEntry.offsetOf (first + k))
              text := ByteLog.truncate archive.text row.start
              attributes := ByteLog.truncate archive.attributes result.1
              openRun := result.2.getD archive.openRun })
        next
        (fun _ after => after.contents.Stores first (stored.take k))
        (fun _ after => archive.contents.SameText after.contents) := by
    rw [ends_bind]
    apply (Yields.reopenedRun _ _ _ _ next hnext).imp
    · rintro ⟨entryEnd, reopened⟩ after ⟨-, hafter⟩
      rw [ends_modify]
      exact (h.of_sameText hafter).truncate hrow (LawfulLog.contents_truncate _ _)
        (LawfulLog.contents_truncate _ _)
    · exact fun e after hafter => hafter
  unfold Archive.rewind
  rw [ends_bind, ends_get]
  dsimp only
  split
  · rw [ends_bind]
    apply (Yields.readChange _ archive (.refl _)).imp
    · exact fun change next hnext => hcut _ next hnext.2
    · exact fun e after hafter => hafter
  · exact hcut _ archive (.refl _)

theorem ends_truncate (archive : Archive σ) (h : archive.contents.Stores first stored)
    (hrow : stored[k]? = some row) :
    Ends (Archive.truncate (first + k)) archive
      (fun _ after => after.contents.Stores first (stored.take k))
      (fun _ after => archive.contents.SameText after.contents) := by
  unfold Archive.truncate
  rw [ends_bind]
  apply (h.yields_readEntry hrow archive (.refl _)).imp
  · rintro _ next ⟨rfl, hnext⟩
    apply ((h.of_sameText hnext).ends_rewind next hrow).imp
    · exact fun _ after hafter => hafter
    · exact fun e after hafter => hnext.trans hafter
  · exact fun e after hafter => hafter

theorem ends_thaw (archive : Archive σ) (h : archive.contents.Stores first stored)
    (hrow : stored[k]? = some row) :
    Ends (Archive.thaw (first + k)) archive
      (fun _ after => after.contents.Stores first (stored.take k))
      (fun _ after => archive.contents.SameText after.contents) := by
  unfold Archive.thaw
  rw [ends_bind]
  apply (h.yields_read hrow archive (.refl _)).imp
  · rintro ⟨_, shown⟩ next ⟨⟨rfl, -⟩, hnext⟩
    rw [ends_bind]
    apply ((h.of_sameText hnext).ends_rewind next hrow).imp
    · exact fun _ after hafter => hafter
    · exact fun e after hafter => hnext.trans hafter
  · exact fun e after hafter => hafter

end ArchiveContents.Stores

end Scrollback
