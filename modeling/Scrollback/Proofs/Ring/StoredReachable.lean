import Scrollback.Proofs.Ring.Attainable
import Scrollback.Proofs.Ring.Stored

/-!
This module contains the proof that every ring that operations lead to stores its frozen rows, whatever
the rows are.
-/

namespace Scrollback

namespace Ring

variable {σ : Type} [ByteLog σ] [LawfulLog σ] {ring : Ring σ} {start finish : Nat}
  {stored : List StoredRow} {room : EStateM RingError (Ring σ) Unit}

theorem IsStored.withWindow (h : ring.IsStored) (window : Window) :
    { ring with window }.IsStored := by
  obtain ⟨start, finish, stored, h⟩ := h
  exact ⟨start, finish, stored, { h with }⟩

namespace Stores

theorem ends_anchor (h : ring.Stores start finish stored) (hall : start + stored.length = finish)
    (hne : stored ≠ []) (marker : Position) {archive : Archive σ}
    (hsame : ring.archive.contents.SameText archive.contents) :
    Ends (ring.anchor marker) { ring with archive }
      (fun _ after => ∃ archive, after = { ring with archive }
        ∧ ring.archive.contents.SameText archive.contents)
      (fun _ after => ∃ archive, after = { ring with archive }
        ∧ ring.archive.contents.SameText archive.contents) := by
  have hlength := List.length_pos_iff.mpr hne
  unfold anchor
  rw [h.start_eq, h.finish_eq]
  split
  · exact ⟨archive, rfl, hsame⟩
  · next hlt =>
    obtain ⟨k, column, hk, hplace⟩ : ∃ k column, k < stored.length
        ∧ (if marker.line < start then (start, 0) else (marker.line, marker.column))
          = (start + k, column) := by
      split
      · exact ⟨0, 0, hlength, rfl⟩
      · exact ⟨marker.line - start, marker.column, by omega, by rw [Nat.add_sub_of_le (by omega)]⟩
    obtain ⟨row, hrow⟩ : ∃ row, stored[k]? = some row := ⟨_, List.getElem?_eq_getElem hk⟩
    rw [hplace]
    dsimp only
    rw [ends_bind, ends_onArchive]
    apply (h.archive.yields_read hrow archive hsame).imp
    · exact fun _ after hafter => ⟨after, rfl, hafter.2⟩
    · exact fun e after hafter => ⟨after, rfl, hafter⟩

theorem relaid (h : ring.Stores start finish stored) {new : List StoredRow} {entries : Array RowEntry}
    (hentries : new.map (·.entry) = entries.toList) {archive : Archive σ}
    (hnew : archive.contents.Stores ring.start new) :
    { ring with
      start := max (ring.start + entries.size - ring.maxRows) ring.start
      writable := ring.start + entries.size
      finish := ring.start + entries.size
      archive :=
        match entries[max (ring.start + entries.size - ring.maxRows) ring.start - ring.start]? with
        | some entry =>
          archive.advanceTails (max (ring.start + entries.size - ring.maxRows) ring.start) entry
        | none => archive
      cache := none }.IsStored := by
  have hmaxRows := h.maxRows_pos
  have hlength : entries.size = new.length := by
    rw [← Array.length_toList, ← hentries, List.length_map]
  have hstart : max (ring.start + new.length - ring.maxRows) ring.start
      = ring.start + (new.length - ring.maxRows) := by
    omega
  rw [hlength, hstart, Nat.add_sub_cancel_left, ← Array.getElem?_toList, ← hentries,
    List.getElem?_map]
  refine ⟨_, _, new.drop (new.length - ring.maxRows), rfl, rfl, ?_, ?_, hmaxRows, ?_, by simp⟩
  · rw [List.length_drop]
    dsimp only
    omega
  · rw [List.length_drop]
    dsimp only
    omega
  · cases hrow : new[new.length - ring.maxRows]? with
    | some row =>
      dsimp only [Option.map_some]
      rw [Archive.contents_advanceTails]
      exact hnew.advanceTails hrow
    | none =>
      -- Only a ring without rows has no oldest one.
      rw [List.getElem?_eq_none_iff] at hrow
      rw [show new.length - ring.maxRows = 0 by omega]
      exact hnew

theorem ends_anchors (h : ring.Stores start finish stored) (hall : start + stored.length = finish)
    (hne : stored ≠ []) (markers : List Position) :
    Ends (markers.mapM ring.anchor) ring
      (fun _ after => ∃ archive, after = { ring with archive }
        ∧ ring.archive.contents.SameText archive.contents)
      (fun _ after => ∃ archive, after = { ring with archive }
        ∧ ring.archive.contents.SameText archive.contents) := by
  apply Ends.mapM_invariant
  · rintro marker _ ⟨archive, rfl, hsame⟩
    exact h.ends_anchor hall hne marker hsame
  · exact ⟨ring.archive, rfl, .refl _⟩

theorem ends_rewrap (h : ring.Stores start finish stored) (hrange : ring.FreezesInRange)
    (columns : Nat) (markers : List Position) :
    Ends (rewrap columns markers) ring (fun _ after => after.IsStored) (fun _ after => after.IsStored) := by
  have hwritable := h.writable_eq
  have hfinish := h.finish_eq
  have hle := h.writable_le
  unfold rewrap
  rw [ends_bind, ends_get]
  split
  · exact h.isStored
  · next hempty =>
    have hlt : start < finish := by
      simp only [isEmpty, decide_eq_true_eq, h.start_eq, h.finish_eq] at hempty
      omega
    have hlive : start + stored.length + (ring.finish - ring.writable) ≤ finish := by
      omega
    rw [ends_bind, ends_get, ends_bind]
    apply ((h.ends_freezeRows hlive).and hrange).imp
    · rintro _ next ⟨hfrozen, hrange⟩
      obtain ⟨rows, hrows, hnext⟩ := hfrozen hrange
      have hlength : start + (stored ++ rows).length = finish := by
        rw [List.length_append]
        omega
      have hne : stored ++ rows ≠ [] := by
        rw [← List.length_pos_iff]
        omega
      have hstart := hnext.start_eq
      rw [ends_bind, ends_get, ends_bind]
      apply (hnext.ends_anchors hlength hne markers).imp
      · rintro anchors _ ⟨archive, rfl, hsame⟩
        have hlayout := hnext.archive.yields_layout (Archive.inRange_iff.mp hrange).1 hne
          (max columns 1) anchors archive hsame
        rw [hlength, ← hnext.finish_eq, ← hstart] at hlayout
        rw [ends_bind, ends_onArchive]
        apply hlayout.imp
        · rintro layout archive ⟨hlayout, hsame⟩
          obtain ⟨new, hnew, hstores⟩ := hlayout.exists_stores next.start
          dsimp only
          rw [ends_bind, ends_onArchive]
          apply (ends_rowLog _ _ archive).imp
          · rintro log archive ⟨hlog, harchive⟩
            rw [← harchive] at hsame
            rw [ends_bind, ends_modify, ends_pure]
            have hrelaid : Archive.contents { archive with rows := log } |>.Stores next.start new :=
              hstores _ hsame.2 hlog
            exact hnext.relaid hnew hrelaid
          · rintro e archive ⟨-, harchive⟩
            rw [← harchive] at hsame
            exact (hnext.withArchive hsame).isStored
        · exact fun e archive hsame => (hnext.withArchive hsame).isStored
      · rintro e _ ⟨archive, rfl, hsame⟩
        exact (hnext.withArchive hsame).isStored
    · rintro e after ⟨hafter, hrange⟩
      exact ⟨start, finish, hafter hrange⟩

theorem ends_callWith (hroom : Grows room) (h : ring.Stores start finish stored) (c : Call) :
    Ends (callWith room c) ring
      (fun _ after => after.archive.InRange → after.IsStored)
      (fun _ after => after.IsStored) := by
  cases c with
  | append row =>
    rw [callWith, appendWith, ends_bind, ends_bind, ends_get]
    apply (h.ends_insertWith hroom ring.finish).imp
    · intro index next hnext
      rw [put, ends_bind, ends_modify]
      exact fun hrange => (hnext hrange).withWindow _
    · exact fun e after hafter => hafter
  | insert index row =>
    rw [callWith, ends_bind]
    apply (h.ends_insertWith hroom index).imp
    · intro index next hnext
      rw [put, ends_bind, ends_modify]
      exact fun hrange => (hnext hrange).withWindow _
    · exact fun e after hafter => hafter
  | assign index row =>
    rw [callWith, ends_bind]
    apply (h.ends_assignWith hroom index row).imp
    · exact fun _ after hafter _ => hafter
    · exact fun e after hafter => hafter
  | row index =>
    rw [callWith, ends_bind]
    apply (h.ends_row index).imp
    · exact fun _ after hafter _ => hafter.1.isStored
    · exact fun e after hafter => hafter.isStored
  | isSoftWrapped index =>
    rw [callWith, ends_bind]
    apply (h.ends_isSoftWrapped index).imp
    · exact fun _ after hafter _ => hafter.1.isStored
    · exact fun e after hafter => hafter.1.isStored
  | erase index =>
    rw [callWith, ends_bind]
    apply (h.ends_eraseWith hroom index).imp
    · exact fun _ after hafter _ => hafter
    · exact fun e after hafter => hafter
  | resize maxRows =>
    rw [callWith, ends_bind]
    apply (h.ends_resize maxRows).imp
    · exact fun _ after hafter _ => hafter
    · exact fun e after hafter => hafter
  | shrink rows =>
    rw [callWith, ends_bind]
    apply (h.ends_shrink rows).imp
    · exact fun _ after hafter _ => hafter
    · exact fun e after hafter => hafter
  | dropScrollback index =>
    rw [callWith, ends_bind]
    apply (h.ends_dropScrollback index).imp
    · exact fun _ after hafter _ => hafter
    · exact fun e after hafter => hafter
  | clear =>
    rw [callWith, ends_bind, ends_modify, ends_pure]
    exact fun _ => h.clear
  | setVisibleRows rows =>
    rw [callWith, ends_bind, ends_modify, ends_pure]
    exact fun _ => isStored { h with }

theorem ends_writeTo {κ : Type} [Sink κ] (h : ring.Stores start finish stored) (sink : κ) :
    Ends (writeTo sink) ring (fun _ after => after.IsStored) (fun _ after => after.IsStored) := by
  have hkept {archive : Archive σ} (harchive : archive.contents = ring.archive.contents) :
      { ring with archive }.IsStored :=
    (h.withArchive (harchive ▸ .refl _)).isStored
  rw [Ring.ends_writeTo]
  apply (Archive.ends_copyText (Sink.tracks_true κ) rfl trivial).imp
  · rintro _ copied ⟨harchive, -⟩
    exact Ends.of_forall (fun _ _ => hkept harchive) fun _ _ => hkept harchive
  · exact fun e copied herr => hkept herr.2

end Stores

variable {κ : Type} [Sink κ] {operation : Operation κ}

theorem IsStored.ends_operateWith (hroom : Grows room) (h : ring.IsStored)
    (hrange : OperatesInRange room operation ring) :
    Ends (operateWith room operation) ring (fun _ after => after.IsStored)
      (fun _ after => after.IsStored) := by
  obtain ⟨start, finish, stored, h⟩ := h
  cases operation with
  | call c =>
    rw [operateWith, ends_bind]
    apply ((h.ends_callWith hroom c).and hrange).imp
    · rintro _ after ⟨hafter, hrange⟩
      exact hafter hrange
    · exact fun e after hafter => hafter.1
  | rewrap columns markers =>
    rw [operateWith, ends_bind]
    apply (h.ends_rewrap hrange columns markers).imp
    · exact fun _ after hafter => hafter
    · exact fun e after hafter => hafter
  | writeContents sink =>
    rw [operateWith, ends_bind]
    apply (h.ends_writeTo sink).imp
    · exact fun _ after hafter => hafter
    · exact fun e after hafter => hafter

theorem isStored_ofLogs (maxRows windowRows : Nat) (rows text attributes : σ) :
    (ofLogs maxRows windowRows rows text attributes).IsStored := by
  refine ⟨0, 0, [], rfl, rfl, rfl, Nat.le_refl 0, Nat.le_max_right maxRows 1, ?_, by simp [ofLogs]⟩
  change (Archive.ofLogs rows text attributes).contents.Stores 0 []
  rw [Archive.contents_ofLogs]
  exact .none 0 0 0

/--
The rows that operations write may have effects without a meaning, so that some rows cannot be read, and
the ring stores them all the same.
-/
theorem Attainable.isStored {p : Row → Prop} (h : ring.Attainable p) : ring.IsStored := by
  induction h with
  | ofLogs maxRows windowRows rows text attributes =>
    exact isStored_ofLogs maxRows windowRows rows text attributes
  | operate operation _ hroom _ hrange ih => exact (ih.ends_operateWith hroom hrange).final
  | touch _ harchive ih =>
    obtain ⟨start, finish, stored, h⟩ := ih
    exact (h.withArchive (harchive ▸ .refl _)).isStored

end Ring

end Scrollback
