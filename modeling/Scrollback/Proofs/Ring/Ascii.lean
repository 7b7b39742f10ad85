import Scrollback.Proofs.Layout.Ascii
import Scrollback.Proofs.Log.Memory
import Scrollback.Proofs.Ring.StoredReachable

/-!
This module contains the proof that a paragraph of rows that are marked as 7-bit is laid out as if its
text was read.
-/

namespace Scrollback

theorem ArchiveContents.Stores.of_findParagraph {σ : Type} [ByteLog σ] [LawfulLog σ]
    {archive : Archive σ} {first k : Nat} {stored : List StoredRow} {row : StoredRow}
    (h : archive.contents.Stores first stored) (hrow : stored[k]? = some row) {found : FoundParagraph}
    (hfound : (Layout.findParagraph (first + stored.length) (first + k)).run' archive = some found) :
    found.first = row.entry ∧ row.start ≤ found.contentEnd
      ∧ found.contentEnd ≤ archive.contents.text.head
      ∧ (found.ascii = true → archive.contents.SevenBit row.start found.contentEnd) := by
  obtain ⟨after, ⟨hfirst, ⟨last, hlast, hend⟩, hlow, hhigh, hascii⟩, -⟩ :=
    (h.yields_findParagraph hrow archive (.refl _)).of_run' hfound
  refine ⟨hfirst, hlow, ?_, fun h => (hascii h).mono (Nat.le_refl _) hhigh⟩
  exact Nat.le_trans hhigh (hend ▸ (h.bounds hlast).2)

namespace Ring

variable {σ : Type} [ByteLog σ] [LawfulLog σ] {ring after : Ring σ} {rows : Nat}

theorem IsStored.freezeRows (h : ring.IsStored) (hrows : rows ≤ ring.finish - ring.writable)
    (hfreeze : Ring.freezeRows rows ring = .ok () after) (hrange : rows = 0 ∨ after.archive.InRange) :
    after.IsStored := by
  rcases hrange with rfl | hrange
  · obtain rfl : ring = after := (EStateM.Result.ok.inj hfreeze).2
    exact h
  · obtain ⟨start, finish, stored, h⟩ := h
    have hwritable := h.writable_eq
    have hfinish := h.finish_eq
    have hle := h.writable_le
    obtain ⟨new, -, hafter⟩ := (h.ends_freezeRows (by omega)).of_ok hfreeze hrange
    exact hafter.isStored

theorem Holds.of_freezeRows {contents : RingContents} (h : ring.Holds contents)
    (hrows : rows ≤ ring.finish - ring.writable)
    (hfreeze : Ring.freezeRows rows ring = .ok () after) (hrange : rows = 0 ∨ after.archive.InRange) :
    ∃ contents, after.Holds contents := by
  rcases hrange with rfl | hrange
  · obtain rfl : ring = after := (EStateM.Result.ok.inj hfreeze).2
    exact ⟨contents, h⟩
  · obtain ⟨start, maxRows, frozen, live⟩ := contents
    rw [h.finish_sub_writable] at hrows
    dsimp only at hrows
    rw [← List.take_append_drop rows live] at h
    have hends := h.ends_freezeRows (live.take rows)
    rw [List.length_take_of_le hrows] at hends
    obtain ⟨new, -, hafter⟩ := hends.of_ok hfreeze hrange
    exact ⟨_, hafter⟩

theorem IsStored.of_findParagraph (h : ring.IsStored) {index : Nat}
    (hindex : ring.start ≤ index ∧ index < ring.writable) {found : FoundParagraph}
    (hfound : (Layout.findParagraph ring.writable index).run' ring.archive = some found) :
    ring.archive.contents.text.tail ≤ found.first.textStart.toNat
      ∧ found.first.textStart.toNat ≤ found.contentEnd
      ∧ found.contentEnd ≤ ring.archive.contents.text.head
      ∧ (found.ascii = true →
        ring.archive.contents.SevenBit found.first.textStart.toNat found.contentEnd) := by
  obtain ⟨start, finish, stored, h⟩ := h
  obtain ⟨k, rfl⟩ := Nat.exists_eq_add_of_le hindex.1
  rw [h.start_eq, h.writable_eq] at hindex hfound
  obtain ⟨row, hrow⟩ : ∃ row, stored[k]? = some row := ⟨_, List.getElem?_eq_getElem (by omega)⟩
  obtain ⟨hfirst, hrest⟩ := h.archive.of_findParagraph hrow hfound
  rw [hfirst]
  exact ⟨(h.archive.bounds hrow).1, hrest⟩

theorem Holds.exists_reads_addParagraph {contents : RingContents} (h : ring.Holds contents) {index : Nat}
    (hindex : ring.start ≤ index ∧ index < ring.writable) {found : FoundParagraph}
    (hfound : (Layout.findParagraph ring.writable index).run' ring.archive = some found)
    (hascii : found.ascii = true) {layout : Layout} (hsorted : layout.Sorted) :
    ∃ laid, Archive.Reads (σ := σ) (layout.addParagraph found.first found.contentEnd true)
      ring.archive.contents laid := by
  obtain ⟨changes, harchive⟩ := h.archive
  obtain ⟨k, rfl⟩ := Nat.exists_eq_add_of_le hindex.1
  rw [h.start_eq, h.writable_eq, RingContents.writable] at hindex hfound
  obtain ⟨row, hrow⟩ : ∃ row, contents.frozen[k]? = some row :=
    ⟨_, List.getElem?_eq_getElem (by omega)⟩
  rw [← List.length_map (f := FrozenRow.stored)] at hfound
  obtain ⟨hfirst, hlow, hhigh, hsevenBit⟩ := harchive.stores.of_findParagraph
    (ArchiveContents.Holds.stored_getElem? hrow) hfound
  rw [hfirst]
  exact harchive.exists_reads_addParagraph hrow hsorted (hsevenBit hascii) hlow hhigh

/--
Whatever styles a ring has seen and however the layout came about, a paragraph of rows that are all marked
as 7-bit is laid out a run at a time as it is a character at a time: only the marks of the new rows may
differ. The paragraph may be one of those that there are after some rows of the window are frozen.

If the flags of all styles are defined, both ways succeed.
-/
theorem addAscii_eq_addText {σ : Type} [ByteLog σ] [ReliableLog σ] {p : Row → Prop}
    {ring after : Ring σ} (hring : ring.Attainable p) {rows : Nat}
    (hrows : rows ≤ ring.finish - ring.writable) (hfreeze : freezeRows rows ring = .ok () after)
    (hrange : rows = 0 ∨ after.archive.InRange) {index : Nat}
    (hindex : after.start ≤ index ∧ index < after.writable) {found : FoundParagraph}
    (hfound : (Layout.findParagraph after.writable index).run' after.archive = some found)
    (hascii : found.ascii = true) {layout : Layout} (hsorted : layout.Sorted) :
    (∀ head reader,
        (outcome (layout.addAscii head reader found.first.textStart.toNat found.contentEnd)
          after.archive).map Layout.forgetAscii
          =
        (outcome (layout.addText head reader found.first.textStart.toNat found.contentEnd)
          after.archive).map Layout.forgetAscii)
      ∧ (outcome (layout.addParagraph found.first found.contentEnd true) after.archive).map
          Layout.forgetAscii
          =
        (outcome (layout.addParagraph found.first found.contentEnd false) after.archive).map
          Layout.forgetAscii
      ∧ ((∀ row, p row → row.FlagsDefined) →
        ∃ laid, outcome (layout.addParagraph found.first found.contentEnd true) after.archive
          = .ok laid) := by
  have hstored := hring.isStored.freezeRows hrows hfreeze hrange
  obtain ⟨htail, hle, hhead, hsevenBit⟩ := hstored.of_findParagraph hindex hfound
  have hparagraph := Layout.outcome_addParagraph hsorted (hsevenBit hascii) htail hle hhead
  refine ⟨?_, hparagraph, ?_⟩
  · exact Layout.outcome_addAscii hsorted rfl (hsevenBit hascii) htail hle hhead
  · intro hp
    obtain ⟨list, ⟨contents, hholds, -⟩, -⟩ := hring.exists_shows hp
    obtain ⟨contents, hholds⟩ := hholds.of_freezeRows hrows hfreeze hrange
    obtain ⟨laid, hlaid⟩ := hholds.exists_reads_addParagraph hindex hfound hascii hsorted
    obtain ⟨_, houtcome, rfl, -⟩ :=
      (hlaid after.archive rfl).outcome_final_of_ok fun e _ herr => Archive.not_isFault e herr.1
    exact ⟨_, houtcome⟩

/--
The glyphs are of all sorts of widths, the widest is wider than a row. One row is frozen for it.
-/
theorem addAscii_eq_addText_wide :
    let wide : Row :=
      { cells := Cell.glyph 'a' { columns := 2 } ++ Cell.glyph 'b' { columns := 2 }
          ++ Cell.glyph 'c' { columns := 5 }
        softWrapped := true }
    let flat : Row := { cells := [Cell.lead 'd' {}, Cell.lead 'e' { columns := 0 }, Cell.lead 'f' {}] }
    let ring := (ofLogs 4 1 default default default : Ring MemoryLog).after
      ([.call (.append wide), .call (.append flat), .call (.append Row.empty)] :
        List (Operation ByteArray))
    let after := final (freezeRows 1) ring
    let found : FoundParagraph :=
      { first := { textStart := 0, styleStart := 0, softWrapped := true, ascii := true }
        last := { textStart := 3, styleStart := 38, softWrapped := false, ascii := true }
        count := 1, textEnd := 7, contentEnd := 6, ascii := true }
    let layout := Layout.ofAnchors 3 [.text 4 1, .below 0 2, .text 1 0, .text 2 3]
    after.writable = 3 ∧ (Layout.findParagraph after.writable 0).run' after.archive = some found
      ∧ ∃ laid, outcome (layout.addParagraph found.first found.contentEnd true) after.archive = .ok laid
        ∧ (outcome (layout.addParagraph found.first found.contentEnd false) after.archive).map
            Layout.forgetAscii
          = .ok laid.forgetAscii
        ∧ ∀ head reader,
          (outcome (layout.addAscii head reader found.first.textStart.toNat found.contentEnd)
            after.archive).map Layout.forgetAscii
            =
          (outcome (layout.addText head reader found.first.textStart.toNat found.contentEnd)
            after.archive).map Layout.forgetAscii := by
  intro wide flat ring after found layout
  have hring : ring.Attainable Row.FlagsDefined :=
    (Attainable.ofLogs 4 1 _ _ _).after (by decide +kernel) (by decide +kernel)
  have hfreeze : freezeRows 1 ring = .ok () after := eq_ok_of_run' (by decide +kernel)
  have hfound : (Layout.findParagraph after.writable 0).run' after.archive = some found := by
    decide +kernel
  have hsorted : layout.Sorted := Layout.sorted_ofAnchors _ _
  obtain ⟨hascii, hparagraph, hlaid⟩ := addAscii_eq_addText hring (by decide +kernel) hfreeze
    (Or.inr (by decide +kernel)) (by decide +kernel) hfound rfl hsorted
  obtain ⟨laid, hlaid⟩ := hlaid fun row hrow => hrow
  refine ⟨by decide +kernel, hfound, laid, hlaid, ?_, hascii⟩
  rw [← hparagraph, hlaid]
  rfl

end Ring

end Scrollback
