import Scrollback.Proofs.Archive.Read

/-!
This module contains the proof that releasing the rows before a frozen row leaves the archive of the
rows from there on, and that forgetting all rows leaves the archive of none.
-/

namespace Scrollback

namespace Runs

variable {low high : Nat} {changes : List StyleChange} {run : OpenRun}

theorem drop (h : Runs low changes run high) {low' count : Nat} (hlow : low ≤ low')
    (htake : ∀ change ∈ changes.take count, change.textEnd.toNat ≤ low') :
    Runs low' (changes.drop count) run high := by
  constructor
  · constructor
    · exact h.increasing.sublist (List.drop_sublist _ _)
    · intro last hlast
      apply h.start_eq
      rw [List.getLast?_drop] at hlast
      split at hlast
      · contradiction
      · exact hlast
  · intro hnil
    rw [List.drop_eq_nil_iff] at hnil
    cases hlast : changes.getLast? with
    | none =>
      have := h.start_le_low (List.getLast?_eq_none_iff.mp hlast)
      omega
    | some last =>
      rw [h.start_eq last hlast]
      rw [List.take_of_length_le hnil] at htake
      exact htake last (List.mem_of_getLast? hlast)
  · exact h.start_le_high
  · exact fun change hchange => h.flagsDefined change (List.mem_of_mem_drop hchange)
  · exact h.flagsDefined_run

end Runs

theorem styleAt_drop (changes : List StyleChange) (run : OpenRun) {count offset : Nat}
    (htake : ∀ change ∈ changes.take count, change.textEnd.toNat ≤ offset) :
    styleAt (changes.drop count) run offset = styleAt changes run offset := by
  have hnone : (changes.take count).find? (offset < ·.textEnd.toNat) = none := by
    rw [List.find?_eq_none]
    simpa using htake
  conv =>
    rhs
    rw [← List.take_append_drop count changes, styleAt, List.find?_append, hnone, Option.none_or]
  rfl

theorem forall_take_of_le {changes : List StyleChange} {count low high : Nat}
    (htake : ∀ change ∈ changes.take count, change.textEnd.toNat ≤ low) (hle : low ≤ high) :
    ∀ change ∈ changes.take count, change.textEnd.toNat ≤ high :=
  fun change hchange => Nat.le_trans (htake change hchange) hle

def ArchiveContents.release (contents : ArchiveContents) (index : Nat) : Option RowEntry → ArchiveContents
  | some entry => contents.advanceTails index entry
  | none => contents.reset index

namespace ArchiveContents.Holds

variable {contents : ArchiveContents} {first : Nat} {frozen : List FrozenRow}
  {changes : List StyleChange} {k : Nat} {row : FrozenRow}

theorem start_le_of_mem_drop (h : contents.Holds first frozen changes)
    (hrow : frozen[k]? = some row) {later : FrozenRow} (hlater : later ∈ frozen.drop k) :
    row.start ≤ later.start := by
  obtain ⟨i, hi⟩ := List.getElem?_of_mem hlater
  rw [List.getElem?_drop] at hi
  rw [h.start_eq hrow, h.start_eq hi]
  exact Nat.add_le_add_left (length_flatMap_take_le _ _ (Nat.le_add_right k i)) _

theorem styleStart_le_of_mem_drop (h : contents.Holds first frozen changes)
    (hrow : frozen[k]? = some row) {later : FrozenRow} (hlater : later ∈ frozen.drop k) :
    row.entry.styleStart.toNat ≤ later.entry.styleStart.toNat := by
  obtain ⟨hk, rfl⟩ := List.getElem?_eq_some_iff.mp hrow
  rw [List.drop_eq_getElem_cons hk, List.mem_cons] at hlater
  rcases hlater with rfl | hlater
  · exact Nat.le_refl _
  · have hsorted := h.sorted
    rw [← List.take_append_drop k frozen, List.drop_eq_getElem_cons hk] at hsorted
    exact (List.pairwise_cons.mp (List.pairwise_append.mp hsorted).2.1).1 later hlater

theorem advanceTails (h : contents.Holds first frozen changes) (hrow : frozen[k]? = some row) :
    ∃ changes', (contents.advanceTails (first + k) row.entry).Holds (first + k) (frozen.drop k)
      changes' := by
  obtain ⟨count, hcount, hentry, htake⟩ := h.located row (List.mem_of_getElem? hrow)
  have hbounds := h.bounds hrow
  have hstores := h.stores.advanceTails (stored_getElem? hrow)
  rw [← List.map_drop] at hstores
  have htext := LogContents.advanceTail_eq contents.text row.start hbounds.1 (by omega)
  have hattributes := LogContents.advanceTail_eq contents.attributes row.entry.styleStart.toNat
    (by omega)
    (by
      rw [h.head_attributes, hentry]
      exact Nat.add_le_add_left (Nat.mul_le_mul_right _ hcount) _)
  -- The changes before the one that the entry points at are about text before the row.
  refine ⟨changes.drop count, ?_⟩
  constructor
  · exact hstores.rows_map
  · exact hstores.text_map
  · have hdrop := drop_flatMap StyleChange.encode changes count
    rw [length_flatMap_of_forall StyleChange.length_encode,
      List.length_take_of_le hcount] at hdrop
    simp only [ArchiveContents.advanceTails]
    rw [hattributes, h.attributes_eq, hentry, Nat.add_sub_cancel_left]
    exact hdrop
  · have hhead := contents.text.head_advanceTail row.entry.textStart.toNat
    simp only [ArchiveContents.advanceTails]
    rw [hhead, ← FrozenRow.start, htext]
    exact h.runs.drop hbounds.1 htake
  · apply hstores.placed_map
    exact fun later hlater => h.softWrapped_eq_of_mem (List.mem_of_mem_drop hlater)
  · intro later hlater
    apply (h.styled later (List.mem_of_mem_drop hlater)).congr
    intro place hle hlt
    have := h.start_le_of_mem_drop hrow hlater
    exact styleAt_drop _ _ (forall_take_of_le htake (by omega))
  · intro later hlater
    have hle := h.styleStart_le_of_mem_drop hrow hlater
    rw [hentry] at hle
    simp only [ArchiveContents.advanceTails, hattributes]
    rw [hentry]
    exact (h.located later (List.mem_of_mem_drop hlater)).drop hle
  · exact h.sorted.sublist (List.drop_sublist _ _)
  · exact fun later hlater => h.ascii later (List.mem_of_mem_drop hlater)
  · exact fun later hlater => h.flagsDefined later (List.mem_of_mem_drop hlater)

theorem none (index text attributes : Nat) :
    ArchiveContents.Holds
      { rows := { tail := RowEntry.offsetOf index, bytes := [] }
        text := { tail := text, bytes := [] }
        attributes := { tail := attributes, bytes := [] }
        openRun := { start := text } }
      index [] [] where
  rows_eq := rfl
  text_eq := rfl
  attributes_eq := rfl
  runs := Runs.empty text
  placed := trivial
  styled := by simp
  located := by simp
  sorted := List.Pairwise.nil
  ascii := by simp
  flagsDefined := by simp

theorem reset (contents : ArchiveContents) (index : Nat) : (contents.reset index).Holds index [] [] :=
  none index _ _

theorem release (h : contents.Holds first frozen changes) (count : Nat) :
    ∃ changes', (contents.release (first + count) (frozen[count]?.map FrozenRow.entry)).Holds
      (first + count) (frozen.drop count) changes' := by
  cases hrow : frozen[count]? with
  | some row => exact h.advanceTails hrow
  | none =>
    rw [List.drop_of_length_le (List.getElem?_eq_none_iff.mp hrow)]
    exact ⟨[], Holds.reset _ _⟩

end ArchiveContents.Holds

end Scrollback
