import Scrollback.Proofs.Archive.Sparse
import Scrollback.Proofs.Ring.Load

/-!
This module contains what the logs hold once rows that were pushed one after the other are all frozen.
When each of them is frozen does not matter, so that the offsets are numbers of 64 bits if the text of
all rows is short enough.
-/

namespace Scrollback

namespace ArchiveContents

def initial : ArchiveContents where
  rows := { tail := 0, bytes := [] }
  text := { tail := 0, bytes := [] }
  attributes := { tail := 0, bytes := [] }
  openRun := {}

theorem freezeRows_append (contents : ArchiveContents) (start writable : Nat) (rows rows' : List Row) :
    contents.freezeRows start writable (rows ++ rows')
      =
    (contents.freezeRows start writable rows).freezeRows start (writable + rows.length) rows' := by
  induction rows generalizing contents writable with
  | nil => rfl
  | cons row rows ih =>
    rw [List.cons_append, freezeRows, freezeRows, ih, List.length_cons, Nat.add_assoc, Nat.add_comm 1]

theorem head_text_freeze (contents : ArchiveContents) (row : Row) :
    (contents.freeze row).text.head = contents.text.head + (Text.utf8 row.line).length := by
  simp only [freeze, LogContents.head_append, Text.toList_toUTF8]
  rw [Draft.text_ofRow, Row.text_styled]

theorem head_text_beforeFreeze (contents : ArchiveContents) (start writable : Nat) :
    (contents.beforeFreeze start writable).text.head = contents.text.head := by
  unfold beforeFreeze
  split
  · rfl
  · rfl

theorem head_text_freezeRows (contents : ArchiveContents) (start writable : Nat) (rows : List Row) :
    (contents.freezeRows start writable rows).text.head
      =
    contents.text.head + (Text.utf8 (rows.flatMap Row.line)).length := by
  induction rows generalizing contents writable with
  | nil => rfl
  | cons row rows ih =>
    rw [freezeRows, ih, head_text_freeze, head_text_beforeFreeze, List.flatMap_cons, Text.utf8_append,
      List.length_append, Nat.add_assoc]

namespace Sparse

theorem initial : initial.Sparse where
  head_le := Nat.le_refl 0
  start_le := Nat.le_refl 0

theorem beforeFreeze {contents : ArchiveContents} (h : contents.Sparse) (start writable : Nat) :
    (contents.beforeFreeze start writable).Sparse := by
  unfold ArchiveContents.beforeFreeze
  split
  · exact h.reset writable
  · exact h

theorem freezeRows {contents : ArchiveContents} (h : contents.Sparse) (start writable : Nat)
    (rows : List Row) : (contents.freezeRows start writable rows).Sparse := by
  induction rows generalizing contents writable with
  | nil => exact h
  | cons row rows ih => exact ih ((h.beforeFreeze start writable).freeze row) (writable + 1)

end Sparse

end ArchiveContents

namespace Ring

variable {σ : Type} [ByteLog σ] [LawfulLog σ] {ring : Ring σ} {live : List Row} {last : Row}
  {index : Nat}

theorem ends_settle_freezeRows (hwindow : ring.window.Shows ring.writable (live ++ [last]))
    (hindex : ring.writable + live.length = index) (hfinish : ring.finish = index + 1) :
    Ends (settleWith ensureRoom index) ring
      (fun _ after => after.start = ring.start ∧ after.maxRows = ring.maxRows
        ∧ ∃ live', after.window.Shows after.writable (live' ++ [last])
          ∧ after.writable + live'.length = index
          ∧ after.archive.contents.freezeRows ring.start after.writable live'
            = ring.archive.contents.freezeRows ring.start ring.writable live)
      (fun _ _ => True) := by
  unfold settleWith
  rw [ends_bind, ends_get]
  dsimp only
  split
  · next hfull =>
    cases live with
    | nil => exact absurd hfull.2.2 (by rw [← hindex]; exact Nat.lt_irrefl _)
    | cons row live =>
      obtain ⟨-, hrow, hlive⟩ := Window.Shows.cons_iff.mp hwindow
      rw [List.length_cons] at hindex
      rw [ends_freezeOldest, hrow]
      apply (Archive.ends_freeze ring.archiveBeforeFreeze row).imp
      · intro _ archive harchive
        refine ⟨rfl, rfl, live, hlive, ?_, ?_⟩
        · dsimp only
          omega
        · dsimp only
          rw [harchive, contents_archiveBeforeFreeze]
          rfl
      · exact fun _ _ _ => trivial
  · have hcount : ring.finish - ring.writable = (live ++ [last]).length := by
      rw [List.length_append, List.length_singleton]
      omega
    apply (ends_ensureRoom_window hwindow hcount).imp
    · rintro _ _ ⟨window, rfl, hwindow, -⟩
      exact ⟨rfl, rfl, live, hwindow, hindex, rfl⟩
    · exact fun _ _ _ => trivial

structure HasPushed (ring : Ring σ) (maxRows : Nat) (rows : List Row) : Prop extends ring.HasRoom where
  start_eq : ring.start = 0
  finish_eq : ring.finish = rows.length
  writable_le : ring.writable ≤ rows.length
  maxRows_eq : ring.maxRows = maxRows
  frozenContents_eq : ring.frozenContents = ArchiveContents.initial.freezeRows 0 0 rows

namespace HasPushed

variable {maxRows : Nat} {before rows : List Row}

theorem ofLogs (maxRows windowRows : Nat) (rows texts attributes : σ) :
    (ofLogs maxRows windowRows rows texts attributes).HasPushed (max maxRows 1) [] where
  toHasRoom := hasRoom_ofLogs maxRows windowRows rows texts attributes
  start_eq := rfl
  finish_eq := rfl
  writable_le := Nat.le_refl 0
  maxRows_eq := rfl
  frozenContents_eq := Archive.contents_ofLogs rows texts attributes

theorem inRange (h : ring.HasPushed maxRows rows)
    (hrange : StyleChange.size * (Text.utf8 (rows.flatMap Row.line)).length < 2 ^ 64) :
    ring.frozenContents.InRange := by
  rw [h.frozenContents_eq]
  apply (ArchiveContents.Sparse.initial.freezeRows 0 0 rows).inRange
  rw [ArchiveContents.head_text_freezeRows]
  rwa [ArchiveContents.initial, LogContents.head, List.length_nil, Nat.zero_add]

theorem shows_windowRows (h : ring.HasPushed maxRows rows) :
    ring.window.Shows ring.writable ring.windowRows
      ∧ ring.writable + ring.windowRows.length = rows.length := by
  have hfinish := h.finish_eq
  have hwritable := h.writable_le
  have hroom := h.finish_lt
  rw [windowRows, List.length_map, List.length_range']
  exact ⟨.ofWindow (by omega), by omega⟩

theorem ends_append (h : ring.HasPushed maxRows rows) (hsize : rows.length < maxRows) :
    Ends append ring
      (fun index after => index = rows.length ∧ after.HasAppended index ∧ after.start = 0
        ∧ after.maxRows = maxRows
        ∧ ∃ live, after.window.Shows after.writable (live ++ [Row.empty])
          ∧ after.writable + live.length = index
          ∧ after.archive.contents.freezeRows 0 after.writable live = ring.frozenContents)
      (fun _ _ => True) := by
  have hstart := h.start_eq
  have hfinish := h.finish_eq
  have hwritable := h.writable_le
  have hmaxRows := h.maxRows_eq
  have hlt := h.finish_lt
  obtain ⟨hwindow, hlength⟩ := h.shows_windowRows
  unfold append appendWith insertWith
  rw [ends_bind, ends_get, ends_bind, ends_requireBound, if_pos ⟨by omega, Nat.le_refl _⟩, ends_bind]
  unfold evict size
  rw [ends_bind, ends_get, if_neg (by omega), ends_pure, ends_bind, ends_get]
  dsimp only
  rw [Nat.max_eq_left (by omega), ends_bind, Ends, ensureWritable_of_writable_le (by omega)]
  dsimp only
  rw [ends_bind, Ends, h.ensureRoom_eq]
  dsimp only
  rw [ends_bind, ends_modify, ends_bind, Nat.sub_self]
  have hinserted := hwindow.insertIdx (by omega) (Nat.le_refl _) Row.empty
  rw [List.insertIdx_length_self, Nat.sub_self, hlength, ← hfinish] at hinserted
  refine Ends.imp (Ends.and
    (ends_settle_freezeRows hinserted (hlength.trans hfinish.symm) rfl)
    (ends_settle_hasAppended ?_ ?_ rfl h.visibleRows_eq ?_)) ?_ ?_
  · exact Nat.le_trans (Nat.le_of_eq hstart) (Nat.zero_le _)
  · exact hfinish ▸ hwritable
  · exact hlt
  · rintro _ after ⟨⟨hafter, hmaxRows', live, hlive, hindex, hfrozen⟩, happended⟩
    rw [ends_pure]
    refine ⟨hfinish, happended, hafter.trans hstart, hmaxRows'.trans hmaxRows, live, hlive, hindex, ?_⟩
    rw [← hstart]
    exact hfrozen
  · exact fun _ _ _ => trivial

theorem ends_push (h : ring.HasPushed maxRows rows) (hsize : rows.length < maxRows) (row : Row) :
    Ends (push row) ring (fun _ after => after.HasPushed maxRows (rows ++ [row])) (fun _ _ => True) := by
  unfold push
  rw [ends_bind]
  apply (h.ends_append hsize).imp
  · rintro _ next ⟨rfl, happended, hstart, hmaxRows, live, hlive, hindex, hfrozen⟩
    have hlength : live.length < (live ++ [Row.empty]).length := by simp
    have hset := hlive.setIdx hlength row
    rw [hindex, List.set_append_right _ _ (Nat.le_refl _), Nat.sub_self, List.set_cons_zero] at hset
    rw [Ends, happended.assign_eq]
    have hpushed : (rows ++ [row]).length = rows.length + 1 := by simp
    have hwindow : { next with window := next.window.set rows.length row }.windowRows = live ++ [row] := by
      have hcount : next.finish - next.writable = (live ++ [row]).length := by
        rw [List.length_append, List.length_singleton, happended.finish_eq]
        omega
      rw [windowRows]
      dsimp only
      rw [hcount, hset.map_row]
    refine ⟨⟨happended.visibleRows_eq, happended.finish_lt⟩, hstart, ?_, ?_, hmaxRows, ?_⟩
    · exact happended.finish_eq.trans hpushed.symm
    · rw [hpushed]
      exact Nat.le_succ_of_le happended.writable_le
    · rw [frozenContents, hwindow]
      dsimp only
      rw [hstart, ArchiveContents.freezeRows_append, hfrozen, hindex, h.frozenContents_eq,
        ArchiveContents.freezeRows_append, Nat.zero_add]
  · exact fun _ _ _ => trivial

theorem ends_pushRows (h : ring.HasPushed maxRows before)
    (hsize : (before ++ rows).length ≤ maxRows) (cursor : Position) :
    Ends (pushRows cursor rows) ring (fun _ after => after.HasPushed maxRows (before ++ rows))
      (fun _ _ => True) := by
  induction rows generalizing ring before cursor with
  | nil =>
    rw [List.append_nil]
    exact h
  | cons row rows ih =>
    rw [List.append_cons] at hsize ⊢
    have hlt : before.length < maxRows := by
      simp only [List.length_append, List.length_singleton] at hsize
      omega
    rw [pushRows, ends_bind]
    apply (h.ends_push hlt row).imp
    · intro _ next hnext
      rw [ends_bind, ends_get]
      exact ih hnext hsize _
    · exact fun _ _ _ => trivial

theorem pushesInRange (h : ring.HasPushed maxRows before)
    (hsize : (before ++ rows).length ≤ maxRows)
    (hrange : StyleChange.size * (Text.utf8 ((before ++ rows).flatMap Row.line)).length < 2 ^ 64) :
    ring.PushesInRange rows := by
  induction rows generalizing ring before with
  | nil => trivial
  | cons row rows ih =>
    rw [List.append_cons] at hsize hrange
    have hlt : before.length < maxRows := by
      simp only [List.length_append, List.length_singleton] at hsize
      omega
    have hle : StyleChange.size * (Text.utf8 ((before ++ [row]).flatMap Row.line)).length < 2 ^ 64 := by
      rw [List.flatMap_append, Text.utf8_append, List.length_append, Nat.mul_add] at hrange
      exact Nat.lt_of_le_of_lt (Nat.le_add_right _ _) hrange
    rw [PushesInRange]
    apply (h.ends_push hlt row).imp
    · intro _ next hnext
      exact ⟨inRange_of_frozenContents (hnext.inRange hle), ih hnext hsize hrange⟩
    · exact fun _ _ _ => trivial

end HasPushed

theorem exists_load_freezesInRange {σ : Type} [ByteLog σ] [ReliableLog σ] (rules : TextRules)
    {columns : Nat} (hcolumns : columns < 2 ^ 58) (text : List Char) (maxRows windowRows : Nat)
    (rows texts attributes : σ)
    (hsize : (rowsOfText rules columns text).length ≤ maxRows)
    (hrange : StyleChange.size * (Text.utf8 ((rowsOfText rules columns text).flatMap Row.line)).length
      < 2 ^ 64) :
    ∃ cursor loaded, load rules columns text (ofLogs maxRows windowRows rows texts attributes)
        = .ok cursor loaded
      ∧ loaded.Shows (RowList.ofRows maxRows (rowsOfText rules columns text))
      ∧ loaded.FreezesInRange := by
  have hpushed := HasPushed.ofLogs maxRows windowRows rows texts attributes
  have hsize := Nat.le_trans hsize (Nat.le_max_left maxRows 1)
  obtain ⟨loaded, hload, hloaded⟩ := exists_load rules hcolumns text maxRows windowRows rows texts
    attributes (hpushed.pushesInRange hsize hrange)
  have hpush := (load_eq rules hcolumns text _).symm.trans hload
  have hpushed := (hpushed.ends_pushRows hsize _).of_ok hpush
  exact ⟨_, loaded, hload, hloaded,
    .of_frozenContents hloaded.writable_le_finish (hpushed.inRange hrange)⟩

end Ring

end Scrollback
