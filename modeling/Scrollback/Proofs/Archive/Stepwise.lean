import Scrollback.Proofs.Archive.Release
import Scrollback.Proofs.Archive.Thaw

/-!
This module contains the proof that frozen rows which are taken out or released one after the other
leave the logs as if all of them were at once.
-/

namespace Scrollback

section

variable {changes : List StyleChange} {cut cut' : Nat}

theorem findIdx_textEnd_mono (changes : List StyleChange) (h : cut' ≤ cut) :
    changes.findIdx (cut' < ·.textEnd.toNat) ≤ changes.findIdx (cut < ·.textEnd.toNat) := by
  apply List.findIdx_le_findIdx
  intro change _ hchange
  rw [decide_eq_true_eq] at hchange ⊢
  omega

theorem findIdx_take_textEnd (changes : List StyleChange) (h : cut' ≤ cut) :
    (changes.take (changes.findIdx (cut < ·.textEnd.toNat))).findIdx (cut' < ·.textEnd.toNat)
      =
    changes.findIdx (cut' < ·.textEnd.toNat) := by
  rw [List.findIdx_take, Nat.min_eq_right (findIdx_textEnd_mono changes h)]

theorem reopened_reopened (low : Nat) (changes : List StyleChange) (run : OpenRun) (h : cut' ≤ cut) :
    reopened low (changes.take (changes.findIdx (cut < ·.textEnd.toNat)))
        (reopened low changes run cut) cut'
      =
    reopened low changes run cut' := by
  have hle := findIdx_textEnd_mono changes h
  rcases Nat.eq_or_lt_of_le hle with heq | hlt
  · -- The run that the later cut opened begins before the earlier one and goes on there.
    have hnone : reopened? low (changes.take (changes.findIdx (cut < ·.textEnd.toNat))) cut'
        = none := by
      rw [reopened?, findIdx_take_textEnd changes h, heq,
        List.getElem?_eq_none (List.length_take_le _ _)]
      rfl
    rw [reopened, hnone, Option.getD_none]
    simp only [reopened, reopened?, heq]
  · have hsome : reopened? low (changes.take (changes.findIdx (cut < ·.textEnd.toNat))) cut'
        = reopened? low changes cut' := by
      simp only [reopened?, findIdx_take_textEnd changes h, List.getElem?_take_of_lt hlt,
        List.take_take, Nat.min_eq_left hle]
    have hindex := List.getElem?_eq_getElem (Nat.lt_of_lt_of_le hlt List.findIdx_le_length)
    unfold reopened
    rw [hsome]
    simp only [reopened?, hindex, Option.map_some, Option.getD_some]

end

namespace ArchiveContents

theorem rewind_rewind (contents : ArchiveContents) (changes : List StyleChange)
    {index index' cut cut' : Nat} (hindex : index' ≤ index) (hcut : cut' ≤ cut) :
    (contents.rewind changes index cut).rewind
        (changes.take (changes.findIdx (cut < ·.textEnd.toNat))) index' cut'
      =
    contents.rewind changes index' cut' := by
  have hoffset : RowEntry.offsetOf index' ≤ RowEntry.offsetOf index :=
    Nat.mul_le_mul_right _ hindex
  have hentry := Nat.add_le_add_left
    (Nat.mul_le_mul_right StyleChange.size (findIdx_textEnd_mono changes hcut)) contents.attributes.tail
  simp only [rewind, LogContents.tail_truncate, LogContents.truncate_truncate _ hoffset,
    LogContents.truncate_truncate _ hcut, findIdx_take_textEnd changes hcut,
    LogContents.truncate_truncate _ hentry, reopened_reopened _ _ _ hcut]

theorem advanceTails_advanceTails (contents : ArchiveContents) {index index' : Nat}
    {entry entry' : RowEntry} (hindex : index ≤ index')
    (htext : entry.textStart.toNat ≤ entry'.textStart.toNat)
    (hstyle : entry.styleStart.toNat ≤ entry'.styleStart.toNat) :
    (contents.advanceTails index entry).advanceTails index' entry'
      =
    contents.advanceTails index' entry' := by
  have hoffset : RowEntry.offsetOf index ≤ RowEntry.offsetOf index' :=
    Nat.mul_le_mul_right _ hindex
  simp only [advanceTails, LogContents.advanceTail_advanceTail _ hoffset,
    LogContents.advanceTail_advanceTail _ htext, LogContents.advanceTail_advanceTail _ hstyle]

theorem reset_advanceTails (contents : ArchiveContents) (index index' : Nat) (entry : RowEntry) :
    (contents.advanceTails index entry).reset index' = contents.reset index' := by
  simp only [reset, advanceTails, LogContents.head_advanceTail]

namespace Holds

open Archive

variable {contents : ArchiveContents} {first : Nat} {frozen : List FrozenRow}
  {changes : List StyleChange}

theorem release_release (h : contents.Holds first frozen changes) {k k' : Nat} (hle : k ≤ k') :
    (contents.release (first + k) (frozen[k]?.map FrozenRow.entry)).release (first + k')
        (frozen[k']?.map FrozenRow.entry)
      =
    contents.release (first + k') (frozen[k']?.map FrozenRow.entry) := by
  cases hrow' : frozen[k']? with
  | none =>
    cases frozen[k]? with
    | none => exact reset_reset _ _ _
    | some row => exact reset_advanceTails _ _ _ _
  | some row' =>
    have hk' := (List.getElem?_eq_some_iff.mp hrow').1
    have hrow := List.getElem?_eq_getElem (Nat.lt_of_le_of_lt hle hk')
    have hlater : row' ∈ frozen.drop k := by
      apply List.mem_of_getElem? (i := k' - k)
      rw [List.getElem?_drop, Nat.add_sub_cancel' hle, hrow']
    rw [hrow]
    exact advanceTails_advanceTails _ (by omega) (h.start_le_of_mem_drop hrow hlater)
      (h.styleStart_le_of_mem_drop hrow hlater)

end Holds

end ArchiveContents

namespace Archive

variable {σ : Type} [ByteLog σ]

def thawRows (index : Nat) : Nat → EStateM RingError (Archive σ) Unit
  | 0 => pure ()
  | count + 1 => do
    discard (thaw (index + count))
    thawRows index count

end Archive

namespace ArchiveContents.Holds

open Archive

variable {σ : Type} [ByteLog σ] [LawfulLog σ] {first : Nat} {frozen : List FrozenRow}
  {changes : List StyleChange} {k : Nat} {row : FrozenRow}

theorem ends_thawRows (archive : Archive σ) (h : archive.contents.Holds first frozen changes)
    (hrow : frozen[k]? = some row) {count : Nat} (hcount : frozen.length = k + (count + 1)) :
    Ends (Archive.thawRows (first + k) (count + 1)) archive
      (fun _ after => after.contents = archive.contents.rewind changes (first + k) row.start)
      (fun e _ => IsFault σ e) := by
  induction count generalizing archive frozen changes with
  | zero =>
    rw [Archive.thawRows, ends_bind, ends_discard]
    apply (h.ends_thaw archive hrow).imp
    · exact fun _ after hafter => hafter.2
    · exact fun e _ herr => herr.1
  | succ count ih =>
    have hlast := List.getElem?_eq_getElem (by omega : k + (count + 1) < frozen.length)
    have hmem : row ∈ frozen.take (k + (count + 1)) := by
      apply List.mem_of_getElem? (i := k)
      rw [List.getElem?_take_of_lt (by omega), hrow]
    have hcut : row.start ≤ frozen[k + (count + 1)].start := by
      have := h.end_le_of_mem_take hlast hmem
      omega
    rw [Archive.thawRows, ends_bind, ends_discard, Nat.add_assoc]
    apply (h.ends_thaw archive hlast).imp
    · rintro _ next ⟨-, hnext⟩
      have hrewind := h.rewind hlast
      rw [← hnext] at hrewind
      apply (ih next hrewind (by rw [List.getElem?_take_of_lt (by omega), hrow])
        (by rw [List.length_take]; omega)).imp
      · intro _ after hafter
        rw [hafter, hnext, rewind_rewind _ _ (by omega) hcut]
      · exact fun e _ he => he
    · exact fun e _ herr => herr.1

end ArchiveContents.Holds

end Scrollback
