import Scrollback.Archive.Thaw
import Scrollback.Proofs.Archive.Read

/-!
This module contains the proof that cutting the logs back to the start of a frozen row leaves the
archive of the rows before it.
-/

namespace Scrollback

/--
The run to open again when the text from an offset on is cut off. There is none if the open run goes
on. `low` is where the text starts.
-/
def reopened? (low : Nat) (changes : List StyleChange) (cut : Nat) : Option OpenRun :=
  let index := changes.findIdx (cut < ·.textEnd.toNat)
  changes[index]?.map fun change =>
    { style := change.style
      start := (changes.take index).getLast?.elim low (·.textEnd.toNat) }

def reopened (low : Nat) (changes : List StyleChange) (run : OpenRun) (cut : Nat) : OpenRun :=
  (reopened? low changes cut).getD run

theorem styleAt_reopened (low : Nat) (changes : List StyleChange) (run : OpenRun)
    {cut offset : Nat} (hoffset : offset < cut) :
    styleAt (changes.take (changes.findIdx (cut < ·.textEnd.toNat))) (reopened low changes run cut)
      offset
      =
    styleAt changes run offset := by
  have htake := forall_take_findIdx changes cut
  generalize hindex : changes.findIdx (cut < ·.textEnd.toNat) = index at *
  by_cases hexists : ∃ change ∈ changes.take index, offset < change.textEnd.toNat
  · conv =>
      rhs
      rw [← List.take_append_drop index changes]
    exact (styleAt_append_of_exists hexists _ _ _).symm
  · have hnone : (changes.take index).find? (offset < ·.textEnd.toNat) = none := by
      rw [List.find?_eq_none]
      simpa using hexists
    unfold reopened reopened? styleAt
    rw [hindex, hnone]
    dsimp only [Option.elim_none]
    cases hchange : changes[index]? with
    | some change =>
      have hlt := (List.getElem?_eq_some_iff.mp hchange).1
      have hfind : changes.find? (offset < ·.textEnd.toNat) = some change := by
        have hcut := lt_textEnd_of_findIdx (hindex ▸ hchange)
        rw [List.getElem?_eq_getElem hlt, Option.some.injEq] at hchange
        conv =>
          lhs
          rw [← List.take_append_drop index changes, List.drop_eq_getElem_cons hlt, hchange]
        rw [List.find?_append, hnone, Option.none_or, List.find?_cons_of_pos]
        rw [decide_eq_true_eq]
        omega
      rw [hfind]
      rfl
    | none =>
      rw [List.getElem?_eq_none_iff] at hchange
      rw [List.take_of_length_le hchange] at hnone
      rw [hnone]
      rfl

namespace Runs

variable {low high cut : Nat} {changes : List StyleChange} {run : OpenRun}

theorem reopen (h : Runs low changes run high) (hlow : low ≤ cut) :
    Runs low (changes.take (changes.findIdx (cut < ·.textEnd.toNat)))
      (reopened low changes run cut) cut := by
  have htake := forall_take_findIdx changes cut
  unfold reopened reopened?
  dsimp only
  cases hchange : changes[changes.findIdx (cut < ·.textEnd.toNat)]? with
  | some change =>
    have hindex := (List.getElem?_eq_some_iff.mp hchange).1
    constructor
    · constructor
      · exact h.increasing.sublist (List.take_sublist _ _)
      · intro last hlast
        rw [Option.mem_def] at hlast
        rw [hlast]
        rfl
    · intro hnil
      rw [hnil]
      exact Nat.le_refl _
    · cases hlast : (changes.take (changes.findIdx (cut < ·.textEnd.toNat))).getLast? with
      | none => exact hlow
      | some last => exact htake last (List.mem_of_getLast? hlast)
    · intro change hchange
      exact h.flagsDefined change (List.mem_of_mem_take hchange)
    · exact h.flagsDefined change (List.mem_of_getElem? hchange)
  | none =>
    rw [List.getElem?_eq_none_iff] at hchange
    rw [List.take_of_length_le hchange] at htake ⊢
    rw [Option.map_none, Option.getD_none]
    refine { h with start_le_high := ?_ }
    cases hlast : changes.getLast? with
    | none =>
      have := h.start_le_low (List.getLast?_eq_none_iff.mp hlast)
      omega
    | some last =>
      rw [h.start_eq last hlast]
      exact htake last (List.mem_of_getLast? hlast)

end Runs

namespace ArchiveContents

def rewind (contents : ArchiveContents) (changes : List StyleChange) (index cut : Nat) :
    ArchiveContents where
  rows := contents.rows.truncate (RowEntry.offsetOf index)
  text := contents.text.truncate cut
  attributes := contents.attributes.truncate (contents.attributes.tail
    + changes.findIdx (cut < ·.textEnd.toNat) * StyleChange.size)
  openRun := reopened contents.text.tail changes contents.openRun cut

namespace Holds

open Archive

variable {σ : Type} [ByteLog σ] [LawfulLog σ] {contents : ArchiveContents} {first : Nat}
  {frozen : List FrozenRow} {changes : List StyleChange} {k : Nat} {row : FrozenRow}

theorem end_le_of_mem_take (h : contents.Holds first frozen changes) (hrow : frozen[k]? = some row)
    {old : FrozenRow} (hold : old ∈ frozen.take k) : old.start + old.bytes.length ≤ row.start := by
  obtain ⟨i, hi, rfl⟩ := List.mem_take_iff_getElem.mp hold
  rw [h.start_add_length (List.getElem?_eq_getElem (by omega : i < frozen.length)), h.start_eq hrow]
  exact Nat.add_le_add_left (length_flatMap_take_le _ _ (by omega)) _

theorem styleStart_le_findIdx (h : contents.Holds first frozen changes) (hrow : frozen[k]? = some row)
    {old : FrozenRow} (hold : old ∈ frozen.take k) :
    old.entry.styleStart.toNat
      ≤ contents.attributes.tail
        + changes.findIdx (row.start < ·.textEnd.toNat) * StyleChange.size := by
  -- The entry of a row before another one does not point past the changes before the other.
  obtain ⟨hk, rfl⟩ := List.getElem?_eq_some_iff.mp hrow
  obtain ⟨i, hi, rfl⟩ := List.mem_take_iff_getElem.mp hold
  obtain ⟨count, hcount, heq, htake⟩ := h.located frozen[k] (List.getElem_mem hk)
  have hsorted := List.pairwise_iff_getElem.mp h.sorted i k (by omega) hk (by omega)
  apply Nat.le_trans hsorted
  rw [heq]
  apply Nat.add_le_add_left
  apply Nat.mul_le_mul_right
  apply Nat.le_of_not_lt
  intro hlt
  have hget := List.getElem?_eq_getElem (Nat.lt_of_lt_of_le hlt hcount)
  have := lt_textEnd_of_findIdx hget
  have := htake _ (List.mem_take_iff_getElem.mpr
    ⟨changes.findIdx (frozen[k].start < ·.textEnd.toNat), by omega, rfl⟩)
  omega

theorem rewind (h : contents.Holds first frozen changes) (hrow : frozen[k]? = some row) :
    (contents.rewind changes (first + k) row.start).Holds first (frozen.take k)
      (changes.take (changes.findIdx (row.start < ·.textEnd.toNat))) := by
  have hbounds := h.bounds hrow
  have hstores : (contents.rewind changes (first + k) row.start).Stores first
      ((frozen.take k).map FrozenRow.stored) := by
    rw [List.map_take]
    exact h.stores.truncate (stored_getElem? hrow) rfl rfl
  constructor
  · exact hstores.rows_map
  · exact hstores.text_map
  · have hlength := length_flatMap_of_forall StyleChange.length_encode
      (changes.take (changes.findIdx (row.start < ·.textEnd.toNat)))
    rw [List.length_take_of_le List.findIdx_le_length] at hlength
    simp only [ArchiveContents.rewind, LogContents.truncate, h.attributes_eq,
      Nat.add_sub_cancel_left, ← hlength]
    exact take_flatMap _ _ _
  · have hhead : (contents.rewind changes (first + k) row.start).text.head = row.start := by
      simp only [ArchiveContents.rewind, LogContents.truncate, LogContents.head, List.length_take]
      rw [LogContents.head] at hbounds
      omega
    rw [hhead]
    exact h.runs.reopen hbounds.1
  · apply hstores.placed_map
    exact fun old hold => h.softWrapped_eq_of_mem (List.mem_of_mem_take hold)
  · intro old hold
    apply (h.styled old (List.mem_of_mem_take hold)).congr
    intro place hle hlt
    have hend := end_le_of_mem_take h hrow hold
    have hsize := old.styledSize_le
    exact styleAt_reopened _ changes contents.openRun (by omega)
  · intro old hold
    exact (h.located old (List.mem_of_mem_take hold)).take (h.styleStart_le_findIdx hrow hold)
  · exact h.sorted.sublist (List.take_sublist _ _)
  · exact fun old hold => h.ascii old (List.mem_of_mem_take hold)
  · exact fun old hold => h.flagsDefined old (List.mem_of_mem_take hold)

theorem reads_reopenedRun (h : contents.Holds first frozen changes) (cut count start : Nat)
    (hcount : count ≤ changes.length)
    (htake : ∀ change ∈ changes.take count, change.textEnd.toNat ≤ cut)
    (hstart : start
      = (changes.take count).getLast?.elim contents.text.tail (·.textEnd.toNat)) :
    Reads (σ := σ)
      (reopenedRun contents.attributes.head cut
        (contents.attributes.tail + count * StyleChange.size) start)
      contents
      (contents.attributes.tail + changes.findIdx (cut < ·.textEnd.toNat) * StyleChange.size,
        reopened? contents.text.tail changes cut) := by
  unfold reopenedRun
  rw [h.head_attributes]
  split
  · next hlt =>
    have hlt : count < changes.length := by
      simp only [StyleChange.size] at hlt
      omega
    have hchange := List.getElem?_eq_getElem hlt
    apply Reads.bind (h.reads_readChange hchange)
    split
    · next hcut =>
      have hindex : changes.findIdx (cut < ·.textEnd.toNat) = count := by
        apply findIdx_eq_of_forall_take htake _ hcount
        rw [hchange]
        simpa using hcut
      simp only [reopened?, hindex, hchange, hstart]
      exact Reads.pure _
    · next hcut =>
      have hreads := h.reads_reopenedRun cut (count + 1) changes[count].textEnd.toNat hlt
      rw [Nat.succ_mul, ← Nat.add_assoc, h.head_attributes,
        List.take_succ_eq_append_getElem hlt] at hreads
      apply hreads
      · rw [List.forall_mem_append, List.forall_mem_singleton]
        exact ⟨htake, by omega⟩
      · rw [List.getLast?_concat]
        rfl
  · next hge =>
    have heq : count = changes.length := by
      simp only [StyleChange.size] at hge
      omega
    rw [heq, List.take_length] at htake
    have hindex : changes.findIdx (cut < ·.textEnd.toNat) = changes.length := by
      rw [List.findIdx_eq_length]
      intro change hchange
      have := htake change hchange
      simp only [decide_eq_false_iff_not]
      omega
    simp only [reopened?, hindex, heq, List.getElem?_eq_none (Nat.le_refl _), Option.map_none]
    exact Reads.pure _
termination_by changes.length - count

theorem ends_rewind (archive : Archive σ) (h : archive.contents.Holds first frozen changes)
    (hrow : frozen[k]? = some row) :
    Ends (Archive.rewind (first + k) row.entry) archive
      (fun _ after => after.contents = archive.contents.rewind changes (first + k) row.start)
      (fun e after => IsFault σ e ∧ after.contents = archive.contents) := by
  obtain ⟨count, hcount, hentry, htake⟩ := h.located row (List.mem_of_getElem? hrow)
  -- Wherever the start of the run before the row came from, the rest is the same.
  have hcut (after : Archive σ) (hafter : after.contents = archive.contents) (start : Nat)
      (hstart : start
        = (changes.take count).getLast?.elim archive.contents.text.tail (·.textEnd.toNat)) :
      Ends
        (reopenedRun archive.contents.attributes.head row.start row.entry.styleStart.toNat start
          >>= fun result =>
            modify fun archive => {
              rows := ByteLog.truncate archive.rows (RowEntry.offsetOf (first + k))
              text := ByteLog.truncate archive.text row.start
              attributes := ByteLog.truncate archive.attributes result.1
              openRun := result.2.getD archive.openRun })
        after
        (fun _ after => after.contents = archive.contents.rewind changes (first + k) row.start)
        (fun e after => IsFault σ e ∧ after.contents = archive.contents) := by
    rw [ends_bind, hentry]
    apply (h.reads_reopenedRun _ _ _ hcount htake hstart).imp_ends hafter
    · intro after' hafter'
      rw [ends_modify, ArchiveContents.rewind, ← hafter']
      simp only [Archive.contents, LawfulLog.contents_truncate, reopened]
    · intro e after' he hafter'
      exact ⟨he, hafter'⟩
  unfold Archive.rewind
  rw [ends_bind, ends_get]
  dsimp only
  rw [Archive.tail_text, Archive.tail_attributes, Archive.head_attributes]
  cases count with
  | zero =>
    rw [if_neg (by omega)]
    exact hcut archive rfl _ rfl
  | succ count =>
    -- The change before the one that the entry points at says where its run starts.
    have hprevious : row.entry.styleStart.toNat - StyleChange.size
        = archive.contents.attributes.tail + count * StyleChange.size := by
      rw [hentry, Nat.succ_mul]
      omega
    rw [if_pos (by rw [hentry]; simp only [StyleChange.size]; omega), hprevious, ends_bind]
    apply (h.reads_readChange (List.getElem?_eq_getElem hcount)).imp_ends rfl
    · intro after hafter
      apply hcut after hafter
      rw [List.take_succ_eq_append_getElem hcount, List.getLast?_concat]
      rfl
    · intro e after he hafter
      exact ⟨he, hafter⟩

theorem ends_thaw (archive : Archive σ) (h : archive.contents.Holds first frozen changes)
    (hrow : frozen[k]? = some row) :
    Ends (Archive.thaw (first + k)) archive
      (fun thawed after => thawed = row.line.toRow
        ∧ after.contents = archive.contents.rewind changes (first + k) row.start)
      (fun e after => IsFault σ e ∧ after.contents = archive.contents) := by
  unfold Archive.thaw
  rw [ends_bind]
  apply (h.reads_read hrow).imp_ends rfl
  · intro after hafter
    rw [ends_bind]
    rw [← hafter] at h ⊢
    apply (h.ends_rewind after hrow).imp
    · intro _ after' hafter'
      exact ⟨rfl, hafter'⟩
    · intro e after' herr
      exact herr
  · intro e after he hafter
    exact ⟨he, hafter⟩

theorem ends_truncate (archive : Archive σ) (h : archive.contents.Holds first frozen changes)
    (hrow : frozen[k]? = some row) :
    Ends (Archive.truncate (first + k)) archive
      (fun _ after => after.contents = archive.contents.rewind changes (first + k) row.start)
      (fun e after => IsFault σ e ∧ after.contents = archive.contents) := by
  unfold Archive.truncate
  rw [ends_bind]
  apply (h.reads_readEntry hrow).imp_ends rfl
  · intro after hafter
    rw [← hafter] at h ⊢
    exact h.ends_rewind after hrow
  · intro e after he hafter
    exact ⟨he, hafter⟩

end Holds

end ArchiveContents

end Scrollback
