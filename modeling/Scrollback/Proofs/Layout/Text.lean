import Scrollback.Proofs.Layout.Styled

/-!
This module contains the proof that the text of frozen rows is laid out by the runs that the
attribute log gives it.
-/

namespace Scrollback

theorem styleRunAt_eq_of_covers {tail : Nat} {changes : List StyleChange} {run : OpenRun}
    {offset place : Nat} (hle : offset ≤ place)
    (h : (styleRunAt tail changes run offset).Covers place) :
    styleRunAt tail changes run place = styleRunAt tail changes run offset := by
  have htake := forall_take_findIdx changes offset
  have hfind : changes.findIdx (place < ·.textEnd.toNat)
      = changes.findIdx (offset < ·.textEnd.toNat) := by
    apply findIdx_eq_of_forall_take
    · exact fun change hchange => Nat.le_trans (htake change hchange) hle
    · intro change hchange
      unfold styleRunAt at h
      dsimp only at h
      rw [Option.mem_def] at hchange
      rw [hchange] at h
      exact h _ rfl
    · exact List.findIdx_le_length
  unfold styleRunAt
  rw [hfind]

theorem StyledBy.uniform_take {styles : Nat → Style} {offset : Nat} {chars : List (Char × Style)}
    (h : StyledBy styles offset chars) (hsize : ∀ char ∈ chars, char.1.utf8Size = 1) {width : Nat}
    (count : Nat)
    (hwidth : ∀ place, offset ≤ place → place < offset + count →
      (styles place).columns.toNat = width) :
    Layout.Uniform width (chars.take count) := by
  intro char hchar
  obtain ⟨i, hi⟩ := List.getElem?_of_mem hchar
  have hlt := (List.getElem?_eq_some_iff.mp hi).1
  rw [List.length_take] at hlt
  rw [List.getElem?_take_of_lt (by omega)] at hi
  refine ⟨hsize char (List.mem_of_mem_take hchar), ?_⟩
  rw [← h.getElem? hsize hi]
  apply hwidth
  · omega
  · omega

def ArchiveContents.entryAt (contents : ArchiveContents) (changes : List StyleChange)
    (offset : Nat) : Nat :=
  (styleRunAt contents.attributes.tail changes contents.openRun offset).entry

namespace ArchiveContents.Holds

open Archive

variable {σ : Type} [ByteLog σ] [LawfulLog σ] {contents : ArchiveContents} {first : Nat}
  {frozen : List FrozenRow} {changes : List StyleChange} {reader : RunReader} {offset : Nat}

theorem reads_addChars (h : contents.Holds first frozen changes)
    (hlow : contents.text.tail ≤ offset)
    (hready : reader.Ready contents.attributes changes contents.openRun offset)
    (layout : Layout) {chars : List (Char × Style)}
    (hstyled : StyledBy (styleAt changes contents.openRun) offset chars) :
    Reads (σ := σ)
      (layout.addChars contents.attributes.head reader offset (chars.map (·.1))) contents
      (layout.addStyled (contents.entryAt changes) false offset chars) := by
  induction chars generalizing reader offset layout with
  | nil => exact Reads.pure _
  | cons char chars ih =>
    obtain ⟨reader', hready', hreads⟩ := reads_runAt (σ := σ) h hlow hready
    rw [List.map_cons, Layout.addChars, Layout.addStyled]
    apply Reads.bind hreads
    dsimp only
    rw [style_styleRunAt, hstyled.1]
    have hopen : (if 0 < char.2.columns.toNat && layout.overflows char.2.columns.toNat then
        layout.openRow offset
          (styleRunAt contents.attributes.tail changes contents.openRun offset).entry false
      else
        layout)
        = layout.openFor (contents.entryAt changes) false offset char.2.columns.toNat := by
      simp only [Layout.openFor, entryAt, Bool.and_eq_true, decide_eq_true_eq]
    rw [hopen]
    exact ih (by omega) (hready'.mono (by omega)) _ hstyled.2

theorem reads_addAscii (h : contents.Holds first frozen changes)
    (hlow : contents.text.tail ≤ offset)
    (hready : reader.Ready contents.attributes changes contents.openRun offset)
    {layout : Layout} (hsorted : layout.Sorted) {chars : List (Char × Style)}
    (hsize : ∀ char ∈ chars, char.1.utf8Size = 1)
    (hstyled : StyledBy (styleAt changes contents.openRun) offset chars) :
    Reads (σ := σ)
      (layout.addAscii contents.attributes.head reader offset (offset + chars.length)) contents
      (layout.addStyled (contents.entryAt changes) true offset chars) := by
  induction hn : chars.length using Nat.strongRecOn generalizing layout offset reader chars with
    | ind _ ih
  subst hn
  cases chars with
  | nil =>
    rw [Layout.addAscii, if_neg (by simp)]
    exact Reads.pure _
  | cons char chars =>
    obtain ⟨reader', hready', hreads⟩ := reads_runAt (σ := σ) h hlow hready
    rw [Layout.addAscii, if_pos (by simp)]
    apply Reads.bind hreads
    dsimp only
    generalize hrun : styleRunAt contents.attributes.tail changes contents.openRun offset = run
    obtain ⟨count, hle, hstop, hgoes⟩ := run.exists_stop offset chars.length
    rw [List.length_cons, hstop]
    have hcovers : ∀ place, offset ≤ place → place < offset + (count + 1) →
        styleRunAt contents.attributes.tail changes contents.openRun place = run := by
      intro place hplace hlt
      rcases Nat.eq_or_lt_of_le hplace with rfl | hlt'
      · exact hrun
      · rw [← hrun]
        apply styleRunAt_eq_of_covers hplace
        rw [hrun]
        exact hgoes place hlt' hlt
    have huniform : Layout.Uniform run.style.columns.toNat (char :: chars.take count) := by
      apply hstyled.uniform_take hsize (count + 1)
      intro place hplace hlt
      rw [← style_styleRunAt contents.attributes.tail, hcovers place hplace hlt]
    have hlength : (chars.take count).length = count := List.length_take_of_le hle
    have hadd := Layout.addRun_eq_addStyled (contents.entryAt changes) hsorted huniform (by
      intro place hplace hlt
      rw [hlength] at hlt
      rw [entryAt, hcovers place hplace hlt])
    rw [hlength] at hadd
    have hsplit : char :: chars = (char :: chars.take count) ++ chars.drop count := by
      rw [List.cons_append, List.take_append_drop]
    have hrest : offset + (chars.length + 1) = offset + (count + 1) + (chars.drop count).length := by
      rw [List.length_drop]
      omega
    have hsize' := hsize
    rw [hsplit, List.forall_mem_append] at hsize'
    rw [hsplit, styledBy_append, huniform.styledSize_eq, List.length_cons, hlength] at hstyled
    rw [hadd, hrest]
    conv =>
      arg 3
      rw [hsplit, Layout.addStyled_append, huniform.styledSize_eq, List.length_cons, hlength]
    apply ih _ _ (by omega) (hready'.mono (by omega)) (hsorted.addStyled _ _ _) hsize'.2 hstyled.2 rfl
    rw [List.length_drop, List.length_cons]
    omega

theorem reads_addParagraph_of_row (h : contents.Holds first frozen changes) {k : Nat} {row : FrozenRow}
    (hrow : frozen[k]? = some row) (layout : Layout) :
    ∃ reader : RunReader, reader.Ready contents.attributes changes contents.openRun row.start
      ∧ ∀ ascii stop laid,
        Reads (σ := σ)
          (if ascii then
            (layout.openRow row.start (contents.entryAt changes row.start) ascii).addAscii
              contents.attributes.head reader row.start stop
          else
            (layout.openRow row.start (contents.entryAt changes row.start) ascii).addText
              contents.attributes.head reader row.start stop) contents laid →
        Reads (σ := σ) (layout.addParagraph row.entry stop ascii) contents laid := by
  obtain ⟨reader, hready, hreads⟩ := h.reads_runAt (σ := σ) (h.bounds hrow).1
    (h.ready_start (List.mem_of_getElem? hrow))
  refine ⟨reader, hready, fun ascii stop laid hlaid => ?_⟩
  unfold Layout.addParagraph
  apply Reads.get_bind
  intro archive harchive
  have hopen : archive.openRun = contents.openRun := by
    rw [← harchive]
    rfl
  have hstart : row.entry.textStart.toNat = row.start := rfl
  rw [Archive.head_attributes, harchive, hopen, hstart]
  exact Reads.bind hreads hlaid

end ArchiveContents.Holds

end Scrollback
