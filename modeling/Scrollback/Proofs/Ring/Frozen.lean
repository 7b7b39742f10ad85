import Scrollback.Proofs.Ring.Freeze
import Scrollback.Ring.Contents

/-!
This module contains what the archive of a ring holds once all rows are frozen. Freezing some of the
rows, or failing to, does not change that.
-/

namespace Scrollback

namespace ArchiveContents

def freezeRows (contents : ArchiveContents) (start : Nat) : Nat → List Row → ArchiveContents
  | _, [] => contents
  | writable, row :: rows =>
    ((contents.beforeFreeze start writable).freeze row).freezeRows start (writable + 1) rows

theorem beforeFreeze_beforeFreeze (contents : ArchiveContents) (start writable : Nat) :
    (contents.beforeFreeze start writable).beforeFreeze start writable
      =
    contents.beforeFreeze start writable := by
  unfold beforeFreeze
  split
  · exact contents.reset_reset writable writable
  · rfl

theorem InRange.of_freezeRows {contents : ArchiveContents} {start writable : Nat} {rows : List Row}
    (h : (contents.freezeRows start writable rows).InRange) : contents.InRange := by
  induction rows generalizing contents writable with
  | nil => exact h
  | cons row rows ih => exact (ih h).of_freeze.of_beforeFreeze

end ArchiveContents

namespace Ring

variable {σ : Type} {ring : Ring σ}

theorem windowRows_eq_cons (h : ring.writable < ring.finish) :
    ring.windowRows
      =
    ring.window.row ring.writable :: { ring with writable := ring.writable + 1 }.windowRows := by
  unfold windowRows
  rw [show ring.finish - ring.writable = ring.finish - (ring.writable + 1) + 1 by omega,
    List.range'_succ]
  rfl

variable [ByteLog σ] [LawfulLog σ]

def frozenContents (ring : Ring σ) : ArchiveContents :=
  ring.archive.contents.freezeRows ring.start ring.writable ring.windowRows

theorem inRange_of_frozenContents (h : ring.frozenContents.InRange) : ring.archive.InRange :=
  Archive.inRange_iff.mpr h.of_freezeRows

theorem frozenContents_of_writable_eq (h : ring.writable = ring.finish) :
    ring.frozenContents = ring.archive.contents := by
  rw [frozenContents, windowRows, h, Nat.sub_self]
  rfl

theorem ends_freezeOldest_frozenContents (hlive : ring.writable < ring.finish) :
    Ends freezeOldest ring
      (fun _ after => after.frozenContents = ring.frozenContents
        ∧ after.writable = ring.writable + 1 ∧ after.finish = ring.finish)
      (fun _ after => after.frozenContents = ring.frozenContents) := by
  rw [ends_freezeOldest]
  apply (Archive.ends_freeze ring.archiveBeforeFreeze _).imp
  · intro _ frozen hfrozen
    refine ⟨?_, rfl, rfl⟩
    rw [frozenContents, frozenContents, windowRows_eq_cons hlive, ArchiveContents.freezeRows]
    dsimp only
    rw [hfrozen, contents_archiveBeforeFreeze]
    rfl
  · rintro e frozen ⟨-, hfrozen⟩
    have hrows : { ring with archive := frozen }.windowRows = ring.windowRows := rfl
    rw [frozenContents, frozenContents, hrows, windowRows_eq_cons hlive, ArchiveContents.freezeRows,
      ArchiveContents.freezeRows]
    dsimp only
    rw [hfrozen, contents_archiveBeforeFreeze, ArchiveContents.beforeFreeze_beforeFreeze]

theorem ends_freezeRows_frozenContents {count : Nat} (hcount : ring.writable + count ≤ ring.finish) :
    Ends (freezeRows count) ring
      (fun _ after => after.frozenContents = ring.frozenContents)
      (fun _ after => after.frozenContents = ring.frozenContents) := by
  induction count generalizing ring with
  | zero => rfl
  | succ count ih =>
    rw [freezeRows, ends_bind]
    apply (ends_freezeOldest_frozenContents (by omega)).imp
    · rintro _ next ⟨hnext, hwritable, hfinish⟩
      rw [← hnext]
      exact ih (by omega)
    · exact fun e after hafter => hafter

end Ring

end Scrollback
