import Scrollback.Proofs.Archive.Stepwise
import Scrollback.Proofs.Log.Memory
import Scrollback.Proofs.Ring.Attainable

/-!
This module contains the proof that a ring whose frozen rows go one after the other, at either end, is
left with the same logs as one that drops them at once.
-/

namespace Scrollback

theorem RingContents.drop_drop (contents : RingContents) (count count' : Nat) :
    (contents.drop count).drop count' = contents.drop (count + count') := by
  simp only [drop, List.drop_drop, List.length_drop, Nat.add_assoc]
  rw [show count - contents.frozen.length + (count' - (contents.frozen.length - count))
    = count + count' - contents.frozen.length by omega]

namespace Ring

variable {σ : Type} [ByteLog σ]

section

variable {ring : Ring σ} {index count : Nat} {ok : Archive σ → Prop}
  {err : RingError → Archive σ → Prop}

theorem ends_thawNewest_archive (hindex : ring.writable = index + 1)
    (h : Ends (Archive.thaw index) ring.archive (fun _ => ok) err) :
    Ends (thawNewestWith ensureRoom) ring
      (fun _ after => after.writable = index ∧ ok after.archive) (fun _ _ => True) := by
  unfold thawNewestWith
  rw [ends_bind]
  apply grows_ensureRoom.ends_frame.imp
  · rintro _ _ ⟨window, rfl⟩
    rw [ends_bind, ends_get]
    dsimp only
    rw [ends_bind, ends_onArchive, hindex, Nat.add_sub_cancel]
    apply h.imp
    · exact fun _ archive harchive => ⟨rfl, harchive⟩
    · exact fun _ _ _ => trivial
  · exact fun _ _ _ => trivial

theorem ends_thawRows_archive (hindex : ring.writable = index + count)
    (h : Ends (Archive.thawRows index count) ring.archive (fun _ => ok) err) :
    Ends (thawRowsWith ensureRoom count) ring
      (fun _ after => after.writable = index ∧ ok after.archive) (fun _ _ => True) := by
  induction count generalizing ring with
  | zero => exact ⟨hindex, h⟩
  | succ count ih =>
    rw [Archive.thawRows, ends_bind, ends_discard] at h
    rw [thawRowsWith, ends_bind]
    apply (ends_thawNewest_archive hindex h).imp
    · rintro _ next ⟨hwritable, hnext⟩
      exact ih hwritable hnext
    · exact fun _ _ _ => trivial

end

def dropOldest : Nat → EStateM RingError (Ring σ) Unit
  | 0 => pure ()
  | count + 1 => do
    dropBefore ((← get).start + 1)
    dropOldest count

variable [LawfulLog σ]

namespace Holds

variable {ring : Ring σ} {contents : RingContents}

theorem ends_dropOldest (h : ring.Holds contents) (count : Nat)
    (hcount : contents.start + (count + 1) ≤ contents.finish) :
    Ends (dropOldest (count + 1)) ring
      (fun _ after => after.Holds (contents.drop (count + 1))
        ∧ after.archive.contents
          = ring.archive.contents.release (contents.start + (count + 1))
            (contents.frozen[count + 1]?.map FrozenRow.entry))
      (fun e _ => Archive.IsFault σ e) := by
  induction count generalizing ring contents with
  | zero =>
    rw [dropOldest, ends_bind, ends_get, ends_bind, h.start_eq]
    apply (h.ends_dropBefore_release 1 hcount).imp
    · exact fun _ after hafter => hafter
    · exact fun e after herr => herr.1
  | succ count ih =>
    obtain ⟨changes, harchive⟩ := h.archive
    rw [dropOldest, ends_bind, ends_get, ends_bind, h.start_eq]
    apply (h.ends_dropBefore_release 1 (by omega)).imp
    · rintro _ next ⟨hnext, hcontents⟩
      have hfinish : (contents.drop 1).finish = contents.finish := by
        have := hnext.finish_eq
        simp only [RingContents.finish, RingContents.writable, RingContents.drop,
          List.length_drop] at *
        omega
      have hstart : (contents.drop 1).start = contents.start + 1 := rfl
      apply (ih hnext (by omega)).imp
      · rintro _ after ⟨hafter, hrelease⟩
        rw [RingContents.drop_drop, Nat.add_comm 1] at hafter
        refine ⟨hafter, ?_⟩
        rw [hrelease, hcontents, hstart, RingContents.drop, List.getElem?_drop, Nat.add_assoc,
          Nat.add_comm 1]
        exact harchive.release_release (by omega)
      · exact fun e after he => he
    · exact fun e after herr => herr.1

end Holds

theorem Shows.ends_ensureWritable_archive {ring : Ring σ} {list : RowList} (h : ring.Shows list)
    {index : Nat} (hle : list.start ≤ index) (hlt : index < ring.writable) {ok : Archive σ → Prop}
    {err : RingError → Archive σ → Prop}
    (hthaw : Ends (Archive.thawRows index (ring.writable - index)) ring.archive (fun _ => ok) err) :
    Ends (ensureWritableWith ensureRoom index) ring
      (fun _ after => after.writable = index ∧ ok after.archive) (fun e _ => IsFailure σ e) := by
  have hfails := h.ends_ensureWritableWith makesRoom_ensureRoom hle
  have harchive : Ends (ensureWritableWith ensureRoom index) ring
      (fun _ after => after.writable = index ∧ ok after.archive) (fun _ _ => True) := by
    unfold ensureWritableWith
    rw [ends_bind, ends_get]
    exact ends_thawRows_archive (by omega) hthaw
  apply (harchive.and hfails).imp
  · exact fun _ _ hafter => hafter.1
  · exact fun _ _ herr => herr.2.1

end Ring

/--
Frozen rows that are cut off or released at once leave the logs as if they went one after the other.
-/
theorem Ring.trim_eq_stepwise {σ : Type} [ByteLog σ] [ReliableLog σ] {ring : Ring σ}
    (hring : ring.Attainable Row.FlagsDefined) :
    (∀ index, ring.start ≤ index → index < ring.writable →
      ∃ cut thawed, Archive.truncate index ring.archive = .ok () cut
        ∧ Archive.thawRows index (ring.writable - index) ring.archive = .ok () thawed
        ∧ thawed.contents = cut.contents
        ∧ Ends (ensureWritableWith ensureRoom index) ring
          (fun _ after => after.writable = index ∧ after.archive.contents = cut.contents)
          (fun e _ => ∃ rows, e = .alloc rows ∧ 2 ^ 58 ≤ rows))
      ∧ ∀ index, ring.start < index → index ≤ ring.finish →
        ∃ dropped stepped, dropBefore index ring = .ok () dropped
          ∧ dropOldest (index - ring.start) ring = .ok () stepped
          ∧ dropped.start = index ∧ stepped.start = index ∧ stepped.writable = dropped.writable
          ∧ stepped.archive.contents = dropped.archive.contents := by
  obtain ⟨list, ⟨contents, hholds, hlist⟩, -⟩ := hring.exists_shows fun _ hrow => hrow
  have hstart := hholds.start_eq
  have hwritable := hholds.writable_eq
  have hfinish := hholds.finish_eq
  rw [RingContents.writable] at hwritable
  refine ⟨fun index hle hlt => ?_, fun index hlt hle => ?_⟩
  · obtain ⟨changes, harchive⟩ := hholds.archive
    obtain ⟨k, rfl⟩ := Nat.exists_eq_add_of_le (hstart ▸ hle)
    obtain ⟨count, hcount⟩ := Nat.exists_eq_add_of_lt (by omega : k < contents.frozen.length)
    have hrow := List.getElem?_eq_getElem (by omega : k < contents.frozen.length)
    have hthawRows := harchive.ends_thawRows ring.archive hrow hcount
    rw [show count + 1 = ring.writable - (contents.start + k) by omega] at hthawRows
    obtain ⟨_, cut, htruncate, hcut⟩ := (harchive.ends_truncate ring.archive hrow).exists_ok
      fun e _ herr => Archive.not_isFault e herr.1
    obtain ⟨_, thawed, hthaw, hthawed⟩ := hthawRows.exists_ok fun e _ => Archive.not_isFault e
    refine ⟨cut, thawed, htruncate, hthaw, hthawed.trans hcut.symm, ?_⟩
    have hshows : ring.Shows list := ⟨contents, hholds, hlist⟩
    apply (hshows.ends_ensureWritable_archive (by rw [← hlist.start_eq]; omega) hlt hthawRows).imp
    · exact fun _ after hafter => ⟨hafter.1, hafter.2.trans hcut.symm⟩
    · rintro e after (hfault | halloc)
      · exact absurd hfault (Archive.not_isFault e)
      · exact halloc
  · obtain ⟨count, rfl⟩ := Nat.exists_eq_add_of_lt (hstart ▸ hlt)
    have hcount : contents.start + (count + 1) ≤ contents.finish := by
      omega
    obtain ⟨_, dropped, hdrop, hdropped, hcontents⟩ :=
      (hholds.ends_dropBefore_release (count + 1) hcount).exists_ok
        fun e _ herr => Archive.not_isFault e herr.1
    obtain ⟨_, stepped, hstep, hstepped, hcontents'⟩ :=
      (hholds.ends_dropOldest count hcount).exists_ok fun e _ => Archive.not_isFault e
    rw [show contents.start + count + 1 - ring.start = count + 1 by omega]
    exact ⟨dropped, stepped, hdrop, hstep, hdropped.start_eq, hstepped.start_eq,
      hstepped.writable_eq.trans hdropped.writable_eq.symm, hcontents'.trans hcontents.symm⟩

/--
The style of the glyph in the oldest row goes on behind a row without text, to the middle of another
one. All rows but the newest are frozen.
-/
theorem Ring.trim_eq_stepwise_run :
    let ring := (ofLogs 9 1 default default default : Ring MemoryLog).after
      ([.call (.append { cells := Cell.glyph 'x' { columns := 2 } }),
        .call (.append { softWrapped := true }),
        .call (.append { cells := Cell.glyph 'y' { columns := 2 } ++ Cell.glyph 'z' {} }),
        .call (.append { cells := Cell.glyph 'w' {} })] : List (Operation ByteArray))
    (∃ cut thawed, Archive.truncate 1 ring.archive = .ok () cut
        ∧ Archive.thawRows 1 2 ring.archive = .ok () thawed ∧ thawed.contents = cut.contents)
      ∧ ∃ dropped stepped, dropBefore 4 ring = .ok () dropped
        ∧ dropOldest 4 ring = .ok () stepped ∧ stepped.start = 4 ∧ stepped.writable = dropped.writable
        ∧ stepped.archive.contents = dropped.archive.contents := by
  intro ring
  have hring : ring.Attainable Row.FlagsDefined :=
    (Attainable.ofLogs 9 1 _ _ _).after (by decide) (by decide +kernel)
  obtain ⟨hcut, hdrop⟩ := trim_eq_stepwise hring
  obtain ⟨cut, thawed, htruncate, hthaw, hcontents, -⟩ :=
    hcut 1 (by decide +kernel) (by decide +kernel)
  obtain ⟨dropped, stepped, hdropped, hstepped, -, hstart⟩ :=
    hdrop 4 (by decide +kernel) (by decide +kernel)
  rw [show ring.writable - 1 = 2 by decide +kernel] at hthaw
  rw [show ring.start = 0 by decide +kernel] at hstepped
  exact ⟨⟨cut, thawed, htruncate, hthaw, hcontents⟩, dropped, stepped, hdropped, hstepped, hstart⟩

end Scrollback
