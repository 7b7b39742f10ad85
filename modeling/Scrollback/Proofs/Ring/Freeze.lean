import Scrollback.Proofs.Archive.Freeze
import Scrollback.Proofs.Archive.Release
import Scrollback.Proofs.Ring.Shows

/-!
This module contains the proof that freezing rows changes where they are kept, and brings them into
their normal form.
-/

namespace Scrollback

namespace ArchiveContents

/--
The contents right before the row with index `writable` is frozen. What is left of rows before it is
dropped if there is no frozen row.
-/
def beforeFreeze (contents : ArchiveContents) (start writable : Nat) : ArchiveContents :=
  if writable = start then contents.reset writable else contents

theorem InRange.of_beforeFreeze {contents : ArchiveContents} {start writable : Nat}
    (h : (contents.beforeFreeze start writable).InRange) : contents.InRange := by
  unfold beforeFreeze at h
  split at h
  · exact h
  · exact h

end ArchiveContents

namespace Ring

variable {σ : Type} [ByteLog σ] {ring : Ring σ}

def archiveBeforeFreeze (ring : Ring σ) : Archive σ :=
  if ring.writable = ring.start then ring.archive.reset ring.writable else ring.archive

theorem ends_freezeOldest {ok : Unit → Ring σ → Prop} {err : RingError → Ring σ → Prop} :
    Ends freezeOldest ring ok err
      ↔
    Ends (Archive.freeze (ring.window.row ring.writable)) ring.archiveBeforeFreeze
      (fun _ archive => ok () { ring with archive, writable := ring.writable + 1 })
      (fun e archive => err e { ring with archive }) := by
  have heq : (if ring.writable = ring.start then
        { ring with archive := ring.archive.reset ring.writable }
      else
        ring) = { ring with archive := ring.archiveBeforeFreeze } := by
    unfold archiveBeforeFreeze
    split <;> rfl
  unfold freezeOldest
  rw [ends_bind, ends_modify, heq, ends_bind, ends_get, ends_bind, ends_onArchive]
  rfl

variable [LawfulLog σ]

theorem contents_archiveBeforeFreeze (ring : Ring σ) :
    ring.archiveBeforeFreeze.contents
      =
    ring.archive.contents.beforeFreeze ring.start ring.writable := by
  unfold archiveBeforeFreeze ArchiveContents.beforeFreeze
  split
  · exact Archive.contents_reset _ _
  · rfl

namespace Holds

theorem withReset {contents : RingContents} (h : ring.Holds contents)
    (hfrozen : contents.frozen = []) {index : Nat} (hindex : index = contents.start) :
    { ring with archive := ring.archive.reset index }.Holds contents := by
  refine { h with archive := ⟨[], ?_⟩ }
  rw [Archive.contents_reset, hfrozen, hindex]
  exact ArchiveContents.Holds.reset _ _

theorem beforeFreeze {contents : RingContents} (h : ring.Holds contents) :
    { ring with archive := ring.archiveBeforeFreeze }.Holds contents := by
  unfold archiveBeforeFreeze
  split
  · next heq =>
    have hfrozen : contents.frozen = [] := by
      have hstart := h.start_eq
      have hwritable := h.writable_eq
      rw [RingContents.writable] at hwritable
      rw [← List.length_eq_zero_iff]
      omega
    exact h.withReset hfrozen (heq.trans h.start_eq)
  · exact h

theorem ends_freezeOldest {start maxRows : Nat} {frozen : List FrozenRow} {row : Row}
    {live : List Row} (h : ring.Holds { start, maxRows, frozen, live := row :: live }) :
    Ends freezeOldest ring
      (fun _ after => after.archive.InRange → ∃ entry, after.Holds
        { start, maxRows, frozen := frozen ++ [{ entry, line := row.styled }], live })
      (fun e after =>
        Archive.IsFault σ e ∧ after.Holds { start, maxRows, frozen, live := row :: live }) := by
  have hrow : ring.window.row ring.writable = row := by
    have := h.window.2 0 row rfl
    rw [← h.writable_eq] at this
    exact this
  have h := h.beforeFreeze
  rw [Ring.ends_freezeOldest, hrow]
  apply (Archive.ends_freeze ring.archiveBeforeFreeze row).imp
  · intro _ after hafter hrange
    rw [Archive.inRange_iff] at hrange
    dsimp only at hrange
    rw [hafter] at hrange
    obtain ⟨changes, harchive⟩ := h.archive
    have hflags := List.forall_mem_cons.mp h.flagsDefined
    obtain ⟨entry, changes', hholds⟩ := harchive.freeze hflags.1 hrange
    refine ⟨entry, ?_⟩
    have hwritable := h.writable_eq
    have hfinish := h.finish_eq
    simp only [RingContents.finish, RingContents.writable, List.length_cons] at hwritable hfinish
    constructor
    · exact h.start_eq
    · simp only [RingContents.writable, List.length_append, List.length_singleton]
      omega
    · simp only [RingContents.finish, RingContents.writable, List.length_append,
        List.length_singleton]
      omega
    · exact h.maxRows_eq
    · exact ⟨_, hafter ▸ hholds⟩
    · simp only [RingContents.writable, List.length_append, List.length_singleton]
      exact (Window.Shows.cons_iff.mp h.window).2.2
    · intro index cached hcached
      obtain ⟨k, row', hindex, hk, hcached⟩ := h.cached index cached hcached
      refine ⟨k, row', hindex, ?_, hcached⟩
      rw [List.getElem?_append_left (List.getElem?_eq_some_iff.mp hk).1]
      exact hk
    · exact hflags.2
  · rintro e after ⟨he, hafter⟩
    exact ⟨he, h.withArchive hafter⟩

end Holds

theorem ends_freezeOldest_inRange (ring : Ring σ) :
    Ends freezeOldest ring (fun _ after => after.archive.InRange → ring.archive.InRange)
      (fun e after => Archive.IsFault σ e ∧ (after.archive.InRange → ring.archive.InRange)) := by
  -- Freezing moves the offsets in the logs forward only, whatever the ring holds.
  rw [Ring.ends_freezeOldest]
  apply (Archive.ends_freeze ring.archiveBeforeFreeze _).imp
  · intro _ after hafter
    rw [Archive.inRange_iff, Archive.inRange_iff, hafter, contents_archiveBeforeFreeze]
    exact fun hrange => hrange.of_freeze.of_beforeFreeze
  · rintro e after ⟨he, hafter⟩
    rw [Archive.inRange_iff, Archive.inRange_iff, hafter, contents_archiveBeforeFreeze]
    exact ⟨he, ArchiveContents.InRange.of_beforeFreeze⟩

theorem ends_freezeRows_inRange (ring : Ring σ) (count : Nat) :
    Ends (freezeRows count) ring (fun _ after => after.archive.InRange → ring.archive.InRange)
      (fun e after => Archive.IsFault σ e ∧ (after.archive.InRange → ring.archive.InRange)) := by
  induction count generalizing ring with
  | zero => exact id
  | succ count ih =>
    rw [freezeRows, ends_bind]
    apply (ends_freezeOldest_inRange ring).imp
    · intro _ next hnext
      apply (ih next).imp
      · exact fun _ after hafter hrange => hnext (hafter hrange)
      · exact fun e after hafter => ⟨hafter.1, fun hrange => hnext (hafter.2 hrange)⟩
    · exact fun e after herr => herr

namespace Holds

theorem ends_freezeRows {start maxRows : Nat} {frozen : List FrozenRow} (rows : List Row)
    {live : List Row} (h : ring.Holds { start, maxRows, frozen, live := rows ++ live }) :
    Ends (freezeRows rows.length) ring
      (fun _ after => after.archive.InRange → ∃ new, new.map (·.line) = rows.map Row.styled
        ∧ after.Holds { start, maxRows, frozen := frozen ++ new, live })
      (fun e after => Archive.IsFault σ e ∧ (after.archive.InRange →
        ∃ before later new, rows = before ++ later ∧ new.map (·.line) = before.map Row.styled
          ∧ after.Holds { start, maxRows, frozen := frozen ++ new, live := later ++ live })) := by
  -- If freezing stops early, some of the rows are frozen.
  induction rows generalizing ring frozen with
  | nil => exact fun _ => ⟨[], rfl, by simpa using h⟩
  | cons row rows ih =>
    rw [List.length_cons, freezeRows, ends_bind]
    apply h.ends_freezeOldest.imp
    · intro _ next hnext
      by_cases hrange : next.archive.InRange
      · obtain ⟨entry, hnext⟩ := hnext hrange
        apply (ih hnext).imp
        · intro _ after hafter hrange
          obtain ⟨new, hnew, hafter⟩ := hafter hrange
          exact ⟨⟨entry, row.styled⟩ :: new, by simp [hnew], by simpa using hafter⟩
        · rintro e after ⟨he, hafter⟩
          refine ⟨he, fun hrange => ?_⟩
          obtain ⟨before, later, new, heq, hnew, hafter⟩ := hafter hrange
          exact ⟨row :: before, later, ⟨entry, row.styled⟩ :: new, by simp [heq], by simp [hnew],
            by simpa using hafter⟩
      · -- The offsets do not come back into range.
        apply (ends_freezeRows_inRange next rows.length).imp
        · exact fun _ after hafter hrange' => absurd (hafter hrange') hrange
        · exact fun e after herr => ⟨herr.1, fun hrange' => absurd (herr.2 hrange') hrange⟩
    · rintro e after ⟨he, hafter⟩
      exact ⟨he, fun _ => ⟨[], row :: rows, [], rfl, rfl, by simpa using hafter⟩⟩

end Holds

end Ring

end Scrollback
