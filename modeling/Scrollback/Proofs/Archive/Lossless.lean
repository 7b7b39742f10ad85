import Scrollback.Proofs.Archive.Freeze
import Scrollback.Proofs.Archive.Release
import Scrollback.Proofs.Archive.Thaw
import Scrollback.Proofs.Log.Memory

/-!
This module contains the proof that freezing loses nothing but what the normal form of a row leaves
out, whatever happened to the archive before.
-/

namespace Scrollback

namespace Archive

variable {σ : Type} [ByteLog σ]

/--
The archives that come about by freezing rows and taking them out again, with the index of the
oldest row and the one of the row that is frozen next.
-/
inductive Reachable : Archive σ → Nat → Nat → Prop where
  | ofLogs (rows text attributes : σ) : Reachable (ofLogs rows text attributes) 0 0
  | freeze {archive after : Archive σ} {first next : Nat} {row : Row}
    (harchive : Reachable archive first next) (hrow : row.FlagsDefined)
    (hrun : Archive.freeze row archive = .ok () after) (hrange : after.InRange) :
    Reachable after first (next + 1)
  | read {archive after : Archive σ} {first next index : Nat} {result : RowEntry × Row}
    (harchive : Reachable archive first next) (hindex : first ≤ index ∧ index < next)
    (hrun : Archive.read index archive = .ok result after) : Reachable after first next
  | thaw {archive after : Archive σ} {first index : Nat} {row : Row}
    (harchive : Reachable archive first (index + 1)) (hindex : first ≤ index)
    (hrun : Archive.thaw index archive = .ok row after) : Reachable after first index
  | truncate {archive after : Archive σ} {first next index : Nat}
    (harchive : Reachable archive first next) (hindex : first ≤ index ∧ index < next)
    (hrun : Archive.truncate index archive = .ok () after) : Reachable after first index
  | advanceTails {archive after : Archive σ} {first next index : Nat} {entry : RowEntry}
    (harchive : Reachable archive first next) (hindex : first ≤ index ∧ index < next)
    (hrun : Archive.readEntry index archive = .ok entry after) :
    Reachable (after.advanceTails index entry) index next
  | reset {archive : Archive σ} {first next : Nat} (harchive : Reachable archive first next)
    (index : Nat) : Reachable (archive.reset index) index index

section

variable [LawfulLog σ] {archive : Archive σ} {first next : Nat}

def HoldsRows (archive : Archive σ) (first next : Nat) : Prop :=
  ∃ frozen changes, archive.contents.Holds first frozen changes ∧ next = first + frozen.length

theorem HoldsRows.freeze (h : archive.HoldsRows first next) {after : Archive σ} {row : Row}
    (hrow : row.FlagsDefined) (hrun : Archive.freeze row archive = .ok () after)
    (hrange : after.InRange) : after.HoldsRows first (next + 1) := by
  obtain ⟨frozen, changes, hholds, rfl⟩ := h
  have hafter := (ends_freeze archive row).of_ok hrun
  rw [inRange_iff, hafter] at hrange
  obtain ⟨entry, changes', hholds⟩ := hholds.freeze hrow hrange
  rw [← hafter] at hholds
  refine ⟨_, _, hholds, ?_⟩
  rw [List.length_append, List.length_singleton, Nat.add_assoc]

theorem exists_getElem? {frozen : List FrozenRow} {index : Nat} (hfirst : first ≤ index)
    (hindex : index < first + frozen.length) :
    ∃ k row, index = first + k ∧ frozen[k]? = some row :=
  ⟨index - first, _, by omega, List.getElem?_eq_getElem (by omega)⟩

theorem Reachable.holdsRows (h : Reachable archive first next) : archive.HoldsRows first next := by
  -- Each step leaves the archive of a list of rows: with one more, or without some at either end.
  induction h with
  | ofLogs rows text attributes =>
    refine ⟨[], [], ?_, rfl⟩
    rw [contents_ofLogs]
    exact ArchiveContents.Holds.none 0 0 0
  | freeze _ hrow hrun hrange ih => exact ih.freeze hrow hrun hrange
  | read _ hindex hrun ih =>
    obtain ⟨frozen, changes, hholds, rfl⟩ := ih
    obtain ⟨k, row, rfl, hk⟩ := exists_getElem? hindex.1 hindex.2
    have hafter := (hholds.reads_read hk _ rfl).of_ok hrun
    exact ⟨frozen, changes, hafter.2 ▸ hholds, rfl⟩
  | @thaw archive after first index _ _ hindex hrun ih =>
    obtain ⟨frozen, changes, hholds, hnext⟩ := ih
    have hlt : index < first + frozen.length := by omega
    obtain ⟨k, row, rfl, hk⟩ := exists_getElem? hindex hlt
    have hafter := (hholds.ends_thaw _ hk).of_ok hrun
    refine ⟨_, _, hafter.2 ▸ hholds.rewind hk, ?_⟩
    rw [List.length_take]
    omega
  | truncate _ hindex hrun ih =>
    obtain ⟨frozen, changes, hholds, rfl⟩ := ih
    obtain ⟨k, row, rfl, hk⟩ := exists_getElem? hindex.1 hindex.2
    have hafter := (hholds.ends_truncate _ hk).of_ok hrun
    refine ⟨_, _, hafter ▸ hholds.rewind hk, ?_⟩
    rw [List.length_take]
    omega
  | advanceTails _ hindex hrun ih =>
    obtain ⟨frozen, changes, hholds, rfl⟩ := ih
    obtain ⟨k, row, rfl, hk⟩ := exists_getElem? hindex.1 hindex.2
    obtain ⟨rfl, hafter⟩ := (hholds.reads_readEntry hk _ rfl).of_ok hrun
    obtain ⟨changes', hholds⟩ := hholds.advanceTails hk
    rw [← hafter, ← contents_advanceTails] at hholds
    refine ⟨_, _, hholds, ?_⟩
    rw [List.length_drop]
    omega
  | reset _ index =>
    refine ⟨[], [], ?_, rfl⟩
    rw [contents_reset]
    exact ArchiveContents.Holds.reset _ index

end

/--
Freezing a row does not fail, the row is read back in its normal form, and the rows that were frozen
before are read back as they were. A well-formed row is its own normal form.
-/
theorem read_freeze {σ : Type} [ByteLog σ] [ReliableLog σ] {archive : Archive σ} {first next : Nat}
    (harchive : Reachable archive first next) (row : Row) (hrow : row.FlagsDefined) :
    (∃ after, Archive.freeze row archive = .ok () after
      ∧ (after.InRange →
        ((Archive.read next).run' after).map (·.2) = some row.normalize
          ∧ ∀ index, first ≤ index → index < next →
            ∃ old, (Archive.read index).run' archive = some old
              ∧ (Archive.read index).run' after = some old))
      ∧ row.normalize.normalize = row.normalize
      ∧ (row.WellFormed → row.normalize = row) := by
  obtain ⟨frozen, changes, hholds, rfl⟩ := harchive.holdsRows
  obtain ⟨_, after, hrun, hafter⟩ :=
    (ends_freeze archive row).exists_ok fun e _ herr => not_isFault e herr.1
  refine ⟨⟨after, hrun, ?_⟩, Row.normalize_normalize row, Row.WellFormed.normalize_eq⟩
  intro hrange
  rw [inRange_iff, hafter] at hrange
  obtain ⟨entry, changes', hholds'⟩ := hholds.freeze hrow hrange
  rw [← hafter] at hholds'
  refine ⟨?_, ?_⟩
  · have hnew : (frozen ++ [⟨entry, row.styled⟩])[frozen.length]? = some ⟨entry, row.styled⟩ := by
      simp
    rw [(hholds'.reads_read hnew).run'_eq, Row.toRow_styled]
    rfl
  · intro index hfirst hindex
    obtain ⟨k, old, rfl, hk⟩ := exists_getElem? hfirst hindex
    have hlt := (List.getElem?_eq_some_iff.mp hk).1
    have hk' : (frozen ++ [⟨entry, row.styled⟩])[k]? = some old := by
      rw [List.getElem?_append_left hlt, hk]
    exact ⟨_, (hholds.reads_read hk).run'_eq, (hholds'.reads_read hk').run'_eq⟩

/--
A row without the fragment of its wide glyph, frozen after one was thawed and another one released.
-/
theorem read_freeze_wide :
    let plain : Row := { cells := Cell.glyph 'x' {}, softWrapped := true }
    let bold : Row := { cells := Cell.glyph 'y' { flags := 1, columns := 2 } }
    let two := final (Archive.freeze bold)
      (final (Archive.freeze plain) (ofLogs default default default : Archive MemoryLog))
    let thawed := final (Archive.thaw 2) (final (Archive.freeze plain) two)
    let entry : RowEntry := { textStart := 1, styleStart := 19, softWrapped := false, ascii := true }
    let archive := (final (Archive.readEntry 1) thawed).advanceTails 1 entry
    ∃ after, Archive.freeze { cells := [Cell.lead 'z' { columns := 2 }] } archive = .ok () after
      ∧ ((Archive.read 2).run' after).map (·.2) = some { cells := Cell.glyph 'z' { columns := 2 } }
      ∧ ((Archive.read 1).run' after).map (·.2) = some bold := by
  intro plain bold two thawed entry archive
  have hplain : plain.FlagsDefined := by decide
  have hbold : bold.FlagsDefined := by decide
  have htwo : Reachable two 0 2 :=
    ((Reachable.ofLogs (default : MemoryLog) default default).freeze hplain (eq_ok_of_run' rfl)
      (by decide +kernel)).freeze hbold (eq_ok_of_run' rfl) (by decide +kernel)
  have hthaw : (Archive.thaw 2).run' (final (Archive.freeze plain) two) = some plain := by
    decide +kernel
  have hthawed : Reachable thawed 0 2 :=
    (htwo.freeze hplain (eq_ok_of_run' rfl) (by decide +kernel)).thaw (Nat.zero_le 2)
      (eq_ok_of_run' hthaw)
  have hentry : (Archive.readEntry 1).run' thawed = some entry := by decide +kernel
  have hreachable : Reachable archive 1 2 :=
    hthawed.advanceTails ⟨Nat.zero_le 1, Nat.one_lt_two⟩ (eq_ok_of_run' hentry)
  obtain ⟨⟨after, hrun, hread⟩, -, -⟩ :=
    read_freeze hreachable { cells := [Cell.lead 'z' { columns := 2 }] } (by decide)
  obtain rfl := final_eq_of_ok hrun
  obtain ⟨hnew, hold⟩ := hread (by decide +kernel)
  obtain ⟨old, hbefore, hafter⟩ := hold 1 (by decide) (by decide)
  have hbold : ((Archive.read 1).run' archive).map (·.2) = some bold := by decide +kernel
  refine ⟨_, hrun, ?_, ?_⟩
  · rw [hnew]
    decide
  · rw [hafter, ← hbefore, hbold]

end Archive

end Scrollback
