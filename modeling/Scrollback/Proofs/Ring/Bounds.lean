import Scrollback.Log.Memory
import Scrollback.Log.Switched
import Scrollback.Proofs.Ring.Operation

/-!
This module contains the bounds on the indices of a ring. They hold after every operation, whatever
the logs do, except that a ring whose limit could not be lowered may keep more rows than that.
-/

namespace Scrollback

theorem Window.capacity_moveUp (window : Window) (index count : Nat) :
    (window.moveUp index count).capacity = window.capacity := by
  induction count generalizing window with
  | zero => rfl
  | succ count ih => rw [moveUp, ih, capacity_swap]

theorem Window.capacity_moveDown (window : Window) (index count : Nat) :
    (window.moveDown index count).capacity = window.capacity := by
  induction count generalizing window index with
  | zero => rfl
  | succ count ih => rw [moveDown, ih, capacity_swap]

namespace Ring

variable {σ : Type}

structure Spans (ring : Ring σ) (start finish maxRows : Nat) : Prop where
  start_eq : ring.start = start
  finish_eq : ring.finish = finish
  maxRows_eq : ring.maxRows = maxRows
  start_le_writable : start ≤ ring.writable
  writable_le_finish : ring.writable ≤ finish
  finish_le : finish ≤ ring.writable + ring.window.capacity

variable {ring : Ring σ} {start finish maxRows index : Nat}

theorem ends_onArchive_frame {α : Type} (action : EStateM RingError (Archive σ) α) :
    Ends (onArchive action) ring (fun _ after => ∃ archive, after = { ring with archive })
      (fun _ after => ∃ archive, after = { ring with archive }) := by
  rw [ends_onArchive]
  exact Ends.of_forall (fun _ archive => ⟨archive, rfl⟩) fun _ archive => ⟨archive, rfl⟩

namespace Spans

theorem withArchive (h : ring.Spans start finish maxRows) (archive : Archive σ) :
    { ring with archive }.Spans start finish maxRows :=
  { h with }

theorem ends_ensureRoom (h : ring.Spans start finish maxRows) :
    Ends ensureRoom ring
      (fun _ after => after.Spans start finish maxRows ∧ after.writable = ring.writable
        ∧ finish < after.writable + after.window.capacity)
      (fun _ after => after.Spans start finish maxRows) := by
  have hfinish := h.finish_eq
  have hle := h.writable_le_finish
  have hroom := h.finish_le
  have hlength : ring.windowRows.length = ring.finish - ring.writable := by simp [windowRows]
  have hwindow : ring.window.Shows ring.writable ring.windowRows := .ofWindow (by omega)
  apply (ends_ensureRoom_window hwindow hlength.symm).imp
  · rintro _ _ ⟨window, rfl, -, hlt⟩
    rw [hlength] at hlt
    have hlt : finish < ring.writable + window.capacity := by omega
    exact ⟨{ h with finish_le := Nat.le_of_lt hlt }, rfl, hlt⟩
  · rintro _ _ ⟨-, rfl⟩
    exact h

variable [ByteLog σ]

theorem ends_thawNewest (h : ring.Spans start finish maxRows) (hfrozen : start < ring.writable) :
    Ends (thawNewestWith ensureRoom) ring
      (fun _ after => after.Spans start finish maxRows ∧ after.writable + 1 = ring.writable)
      (fun _ after => after.Spans start finish maxRows) := by
  unfold thawNewestWith
  rw [ends_bind]
  apply h.ends_ensureRoom.imp
  · rintro _ next ⟨h, hwritable, hroom⟩
    rw [ends_bind, ends_get]
    dsimp only
    rw [ends_bind]
    apply (ends_onArchive_frame _).imp
    · rintro row _ ⟨archive, rfl⟩
      rw [ends_modify]
      have := h.writable_le_finish
      refine ⟨⟨h.start_eq, h.finish_eq, h.maxRows_eq, ?_, ?_, ?_⟩, ?_⟩
      all_goals
        simp only [dropStaleCache, Window.capacity_set]
        omega
    · rintro e _ ⟨archive, rfl⟩
      exact h.withArchive archive
  · exact fun e after h => h

theorem ends_thawRows (h : ring.Spans start finish maxRows) {count : Nat}
    (hcount : start + count ≤ ring.writable) :
    Ends (thawRowsWith ensureRoom count) ring
      (fun _ after => after.Spans start finish maxRows ∧ after.writable + count = ring.writable)
      (fun _ after => after.Spans start finish maxRows) := by
  induction count generalizing ring with
  | zero => exact ⟨h, rfl⟩
  | succ count ih =>
    rw [thawRowsWith, ends_bind]
    apply (h.ends_thawNewest (by omega)).imp
    · rintro _ next ⟨h, hwritable⟩
      apply (ih h (by omega)).imp
      · rintro _ after ⟨h, hafter⟩
        exact ⟨h, by omega⟩
      · exact fun e after h => h
    · exact fun e after h => h

theorem ends_ensureWritable (h : ring.Spans start finish maxRows) (hindex : start ≤ index) :
    Ends (ensureWritableWith ensureRoom index) ring
      (fun _ after => after.Spans start finish maxRows ∧ after.writable ≤ index)
      (fun _ after => after.Spans start finish maxRows) := by
  have := h.start_le_writable
  unfold ensureWritableWith
  rw [ends_bind, ends_get]
  apply (h.ends_thawRows (by omega)).imp
  · rintro _ after ⟨h, hafter⟩
    exact ⟨h, by omega⟩
  · exact fun e after h => h

theorem ends_freezeOldest (h : ring.Spans start finish maxRows) (hlive : ring.writable < finish) :
    Ends freezeOldest ring
      (fun _ after => after.Spans start finish maxRows ∧ after.writable = ring.writable + 1)
      (fun _ after => after.Spans start finish maxRows) := by
  rw [Ring.ends_freezeOldest]
  apply Ends.of_forall
  · intro _ archive
    have := h.start_le_writable
    have := h.finish_le
    exact ⟨⟨h.start_eq, h.finish_eq, h.maxRows_eq, by dsimp only; omega, hlive,
      by dsimp only; omega⟩, rfl⟩
  · exact fun e archive => h.withArchive archive

theorem ends_freezeRows (h : ring.Spans start finish maxRows) {count : Nat}
    (hcount : ring.writable + count ≤ finish) :
    Ends (freezeRows count) ring
      (fun _ after => after.Spans start finish maxRows ∧ after.writable = ring.writable + count)
      (fun _ after => after.Spans start finish maxRows) := by
  induction count generalizing ring with
  | zero => exact ⟨h, rfl⟩
  | succ count ih =>
    rw [freezeRows, ends_bind]
    apply (h.ends_freezeOldest (by omega)).imp
    · rintro _ next ⟨h, hwritable⟩
      apply (ih h (by omega)).imp
      · rintro _ after ⟨h, hafter⟩
        exact ⟨h, by omega⟩
      · exact fun e after h => h
    · exact fun e after h => h

theorem ends_dropBefore (h : ring.Spans start finish maxRows) (hfinish : index ≤ finish) :
    Ends (dropBefore index) ring
      (fun _ after => after.Spans index finish maxRows)
      (fun _ after => after.Spans start finish maxRows) := by
  have hlive := h.finish_le
  unfold dropBefore
  rw [ends_bind, ends_get]
  split
  · next hlt =>
    rw [ends_bind]
    apply (ends_onArchive_frame _).imp
    · rintro entry _ ⟨archive, rfl⟩
      rw [ends_bind, ends_modify, ends_modify]
      exact { h with start_eq := rfl, start_le_writable := Nat.le_of_lt hlt }
    · rintro e _ ⟨archive, rfl⟩
      exact h.withArchive archive
  · next hge =>
    rw [ends_bind, ends_modify, ends_modify]
    exact ⟨rfl, h.finish_eq, h.maxRows_eq, Nat.le_refl _, hfinish, by
      dsimp only [dropStaleCache]
      omega⟩

theorem ends_evict (h : ring.Spans start finish maxRows) (hmaxRows : 0 < maxRows) :
    Ends evict ring
      (fun _ after => after.Spans (if maxRows ≤ finish - start then start + 1 else start) finish maxRows)
      (fun _ after => after.Spans start finish maxRows) := by
  unfold evict size
  rw [ends_bind, ends_get, h.maxRows_eq, h.finish_eq, h.start_eq]
  split
  · exact h.ends_dropBefore (by omega)
  · exact h

theorem ends_settle (h : ring.Spans start finish maxRows) (keep : Nat) :
    Ends (settleWith ensureRoom keep) ring
      (fun _ after => after.Spans start finish maxRows)
      (fun _ after => after.Spans start finish maxRows) := by
  unfold settleWith
  rw [ends_bind, ends_get, h.finish_eq]
  dsimp only
  split
  · apply (h.ends_freezeOldest (by omega)).imp
    · exact fun _ after hafter => hafter.1
    · exact fun e after hafter => hafter
  · apply h.ends_ensureRoom.imp
    · exact fun _ after hafter => hafter.1
    · exact fun e after hafter => hafter

theorem ends_row (h : ring.Spans start finish maxRows) (index : Nat) :
    Ends (Ring.row index) ring (fun _ after => after.Spans start finish maxRows)
      (fun _ after => after.Spans start finish maxRows) := by
  unfold Ring.row
  rw [ends_bind, ends_requireRow]
  split
  · rw [ends_bind, ends_get]
    split
    · exact h
    · split
      · exact h
      · rw [ends_bind, ends_set, ends_bind]
        apply (ends_onArchive_frame _).imp
        · rintro ⟨_, row⟩ _ ⟨archive, rfl⟩
          rw [ends_bind, ends_modify, ends_pure]
          exact { h with }
        · rintro e _ ⟨archive, rfl⟩
          exact { h with }
  · exact h

theorem ends_isSoftWrapped (h : ring.Spans start finish maxRows) (index : Nat) :
    Ends (Ring.isSoftWrapped index) ring (fun _ after => after.Spans start finish maxRows)
      (fun _ after => after.Spans start finish maxRows) := by
  unfold Ring.isSoftWrapped
  rw [ends_bind, ends_requireRow]
  split
  · rw [ends_bind, ends_get]
    split
    · exact h
    · rw [ends_bind]
      apply (ends_onArchive_frame _).imp
      · rintro entry _ ⟨archive, rfl⟩
        exact h.withArchive archive
      · rintro e _ ⟨archive, rfl⟩
        exact h.withArchive archive
  · exact h

end Spans

structure Bounded (ring : Ring σ) : Prop where
  start_le_writable : ring.start ≤ ring.writable
  writable_le_finish : ring.writable ≤ ring.finish
  size_le_capacity : ring.finish - ring.writable ≤ ring.window.capacity
  maxRows_pos : 0 < ring.maxRows

theorem Bounded.spans (h : ring.Bounded) : ring.Spans ring.start ring.finish ring.maxRows where
  start_eq := rfl
  finish_eq := rfl
  maxRows_eq := rfl
  start_le_writable := h.start_le_writable
  writable_le_finish := h.writable_le_finish
  finish_le := Nat.sub_le_iff_le_add'.mp h.size_le_capacity

theorem Spans.bounded (h : ring.Spans start finish maxRows) (hmaxRows : 0 < maxRows) :
    ring.Bounded where
  start_le_writable := h.start_eq ▸ h.start_le_writable
  writable_le_finish := h.finish_eq ▸ h.writable_le_finish
  size_le_capacity := h.finish_eq ▸ Nat.sub_le_iff_le_add'.mpr h.finish_le
  maxRows_pos := h.maxRows_eq ▸ hmaxRows

def KeepsBounds (ring after : Ring σ) : Prop :=
  after.Bounded ∧ (ring.size ≤ ring.maxRows → after.size ≤ after.maxRows)

theorem Spans.keepsBounds {after : Ring σ} (h : after.Spans start finish maxRows)
    (hmaxRows : 0 < maxRows) (hsize : ring.size ≤ ring.maxRows → finish - start ≤ maxRows) :
    ring.KeepsBounds after := by
  refine ⟨h.bounded hmaxRows, fun hring => ?_⟩
  rw [Ring.size, h.start_eq, h.finish_eq, h.maxRows_eq]
  exact hsize hring

theorem KeepsBounds.set {after : Ring σ} (h : ring.KeepsBounds after) (index : Nat) (row : Row) :
    ring.KeepsBounds { after with window := after.window.set index row } :=
  ⟨{ h.1 with }, h.2⟩

namespace Bounded

theorem keepsBounds (h : ring.Bounded) {after : Ring σ}
    (hafter : after.Spans ring.start ring.finish ring.maxRows) : ring.KeepsBounds after :=
  hafter.keepsBounds h.maxRows_pos id

variable [ByteLog σ]

theorem ends_insert (h : ring.Bounded) (index : Nat) :
    Ends (insert index) ring (fun _ => ring.KeepsBounds) (fun _ => ring.KeepsBounds) := by
  have hmaxRows := h.maxRows_pos
  unfold insert insertWith
  rw [ends_bind, ends_requireBound]
  split
  · next hindex =>
    rw [ends_bind]
    apply (h.spans.ends_evict hmaxRows).imp
    · generalize hfirst : (if ring.maxRows ≤ ring.finish - ring.start then ring.start + 1
        else ring.start) = first
      have hsize : ring.size ≤ ring.maxRows → ring.finish + 1 - first ≤ ring.maxRows := by
        rw [size]
        split at hfirst
        all_goals omega
      rintro _ next hnext
      rw [ends_bind, ends_get, hnext.start_eq]
      dsimp only
      rw [ends_bind]
      apply (hnext.ends_ensureWritable (Nat.le_max_right index first)).imp
      · rintro _ next ⟨hnext, hwritable⟩
        rw [ends_bind]
        apply hnext.ends_ensureRoom.imp
        · rintro _ next' ⟨hnext, heq, hroom⟩
          have hinsert : { next' with
              window := (next'.window.moveUp (max index first)
                (next'.finish - max index first)).set (max index first) Row.empty
              finish := next'.finish + 1 }.Spans first (ring.finish + 1) ring.maxRows := by
            have hle := hnext.writable_le_finish
            refine ⟨hnext.start_eq, ?_, hnext.maxRows_eq, hnext.start_le_writable, ?_, ?_⟩
            · rw [← hnext.finish_eq]
            · exact Nat.le_succ_of_le hle
            · rw [Window.capacity_set, Window.capacity_moveUp]
              exact hroom
          rw [ends_bind, ends_modify, ends_bind]
          apply (hinsert.ends_settle _).imp
          · exact fun _ after hafter => hafter.keepsBounds hmaxRows hsize
          · exact fun e after hafter => hafter.keepsBounds hmaxRows hsize
        · exact fun e after hafter => hafter.keepsBounds hmaxRows fun hring => by
            have := hsize hring
            omega
      · exact fun e after hafter => hafter.keepsBounds hmaxRows fun hring => by
          have := hsize hring
          omega
    · exact fun e after hafter => h.keepsBounds hafter
  · exact h.keepsBounds h.spans

theorem ends_append (h : ring.Bounded) :
    Ends append ring (fun _ => ring.KeepsBounds) (fun _ => ring.KeepsBounds) := by
  unfold append appendWith
  rw [ends_bind, ends_get]
  exact h.ends_insert ring.finish

theorem ends_assign (h : ring.Bounded) (index : Nat) (row : Row) :
    Ends (assign index row) ring (fun _ => ring.KeepsBounds) (fun _ => ring.KeepsBounds) := by
  unfold assign assignWith editWith
  rw [ends_bind, ends_requireRow]
  split
  · next hindex =>
    rw [ends_bind]
    apply (h.spans.ends_ensureWritable hindex.1).imp
    · rintro _ next ⟨hnext, -⟩
      rw [ends_bind, ends_get]
      dsimp only
      rw [ends_bind, ends_set, ends_pure]
      exact (h.keepsBounds hnext).set index row
    · exact fun e after hafter => h.keepsBounds hafter
  · exact h.keepsBounds h.spans

theorem ends_erase (h : ring.Bounded) (index : Nat) :
    Ends (erase index) ring (fun _ => ring.KeepsBounds) (fun _ => ring.KeepsBounds) := by
  unfold erase eraseWith
  rw [ends_bind, ends_requireRow]
  split
  · next hindex =>
    rw [ends_bind]
    apply (h.spans.ends_ensureWritable hindex.1).imp
    · rintro _ next ⟨hnext, hwritable⟩
      have hfinish := hnext.finish_eq
      have hcapacity := hnext.finish_le
      have herase : { next with
          window := (next.window.set index Row.empty).moveDown index (next.finish - 1 - index)
          finish := next.finish - 1 }.Spans ring.start (ring.finish - 1) ring.maxRows := by
        refine ⟨hnext.start_eq, ?_, hnext.maxRows_eq, hnext.start_le_writable, ?_, ?_⟩
        · rw [← hfinish]
        · dsimp only
          omega
        · rw [Window.capacity_moveDown, Window.capacity_set]
          dsimp only
          omega
      rw [ends_bind, ends_get]
      dsimp only
      rw [ends_bind, ends_set, ends_pure]
      apply herase.keepsBounds h.maxRows_pos
      rw [size]
      omega
    · exact fun e after hafter => h.keepsBounds hafter
  · exact h.keepsBounds h.spans

theorem ends_resize (h : ring.Bounded) (maxRows : Nat) :
    Ends (resize maxRows) ring (fun _ => ring.KeepsBounds) (fun _ => Bounded) := by
  have hlimit : { ring with maxRows := max maxRows 1 }.Bounded :=
    { h with maxRows_pos := Nat.lt_of_lt_of_le Nat.one_pos (Nat.le_max_right maxRows 1) }
  unfold resize
  rw [ends_bind, ends_modify, ends_bind, ends_get]
  split
  · apply (hlimit.spans.ends_dropBefore (Nat.sub_le _ _)).imp
    · exact fun _ after hafter => hafter.keepsBounds hlimit.maxRows_pos fun _ => by omega
    · exact fun e after hafter => hafter.bounded hlimit.maxRows_pos
  · next hsize => exact ⟨hlimit, fun _ => Nat.not_lt.mp hsize⟩

theorem ends_shrink (h : ring.Bounded) (rows : Nat) :
    Ends (shrink rows) ring (fun _ => ring.KeepsBounds) (fun _ => ring.KeepsBounds) := by
  have hcapacity := h.size_le_capacity
  unfold shrink
  rw [ends_bind, ends_get]
  split
  · next hsize =>
    rw [size] at hsize
    dsimp only
    split
    · rw [ends_bind]
      apply (ends_onArchive_frame _).imp
      · rintro _ _ ⟨archive, rfl⟩
        rw [ends_bind, ends_modify, ends_modify]
        refine ⟨⟨Nat.le_add_right _ _, Nat.le_refl _, ?_, h.maxRows_pos⟩, ?_⟩
        all_goals
          simp only [size, dropStaleCache]
          omega
      · rintro e _ ⟨archive, rfl⟩
        exact h.keepsBounds { h.spans with }
    · rw [ends_modify]
      refine ⟨⟨h.start_le_writable, ?_, ?_, h.maxRows_pos⟩, ?_⟩
      all_goals
        simp only [size]
        omega
  · exact h.keepsBounds h.spans

theorem ends_dropScrollback (h : ring.Bounded) (index : Nat) :
    Ends (dropScrollback index) ring (fun _ => ring.KeepsBounds) (fun _ => ring.KeepsBounds) := by
  unfold dropScrollback
  rw [ends_bind, ends_requireBound]
  split
  · next hindex =>
    rw [ends_bind, ends_get]
    split
    · apply (h.spans.ends_dropBefore hindex.2).imp
      · exact fun _ after hafter => hafter.keepsBounds h.maxRows_pos (by
          rw [size]
          omega)
      · exact fun e after hafter => h.keepsBounds hafter
    · exact h.keepsBounds h.spans
  · exact h.keepsBounds h.spans

theorem ends_call (h : ring.Bounded) (c : Call) :
    Ends (call c) ring (fun _ => ring.KeepsBounds)
      (fun e after => after.Bounded ∧ (ring.KeepsBounds after
        ∨ ∃ maxRows, c = .resize maxRows ∧ resize maxRows ring = .error e after)) := by
  have herr {e : RingError} {after : Ring σ} (hafter : ring.KeepsBounds after) :
      after.Bounded ∧ (ring.KeepsBounds after
        ∨ ∃ maxRows, c = .resize maxRows ∧ resize maxRows ring = .error e after) :=
    ⟨hafter.1, Or.inl hafter⟩
  cases c with
  | append row =>
    rw [call, callWith, ends_bind]
    apply h.ends_append.imp
    · intro index next hnext
      rw [put, ends_bind, ends_modify]
      exact hnext.set index row
    · exact fun e after hafter => herr hafter
  | insert index row =>
    rw [call, callWith, ends_bind]
    apply (h.ends_insert index).imp
    · intro index next hnext
      rw [put, ends_bind, ends_modify]
      exact hnext.set index row
    · exact fun e after hafter => herr hafter
  | assign index row =>
    rw [call, callWith, ends_bind]
    apply (h.ends_assign index row).imp
    · exact fun _ after hafter => hafter
    · exact fun e after hafter => herr hafter
  | row index =>
    rw [call, callWith, ends_bind]
    apply (h.spans.ends_row index).imp
    · exact fun _ after hafter => h.keepsBounds hafter
    · exact fun e after hafter => herr (h.keepsBounds hafter)
  | isSoftWrapped index =>
    rw [call, callWith, ends_bind]
    apply (h.spans.ends_isSoftWrapped index).imp
    · exact fun _ after hafter => h.keepsBounds hafter
    · exact fun e after hafter => herr (h.keepsBounds hafter)
  | erase index =>
    rw [call, callWith, ends_bind]
    apply (h.ends_erase index).imp
    · exact fun _ after hafter => hafter
    · exact fun e after hafter => herr hafter
  | resize maxRows =>
    rw [call, callWith, ends_bind]
    apply (h.ends_resize maxRows).with_result.imp
    · exact fun _ after hafter => hafter.1
    · rintro e after ⟨hafter, hresult⟩
      exact ⟨hafter, Or.inr ⟨maxRows, rfl, hresult⟩⟩
  | shrink rows =>
    rw [call, callWith, ends_bind]
    apply (h.ends_shrink rows).imp
    · exact fun _ after hafter => hafter
    · exact fun e after hafter => herr hafter
  | dropScrollback index =>
    rw [call, callWith, ends_bind]
    apply (h.ends_dropScrollback index).imp
    · exact fun _ after hafter => hafter
    · exact fun e after hafter => herr hafter
  | clear =>
    rw [call, callWith, ends_bind, ends_modify, ends_pure]
    exact ⟨⟨Nat.le_refl _, Nat.le_refl _, by simp [clear, dropStaleCache], h.maxRows_pos⟩, fun _ => by
      simp [size, clear, dropStaleCache]⟩
  | setVisibleRows rows =>
    rw [call, callWith, ends_bind, ends_modify, ends_pure]
    exact h.keepsBounds { h.spans with }

theorem ends_rewrap (h : ring.Bounded) (columns : Nat) (markers : List Position) :
    Ends (rewrap columns markers) ring (fun _ => ring.KeepsBounds) (fun _ => ring.KeepsBounds) := by
  have hanchor (frozen : Ring σ) (marker : Position) (next : Ring σ)
      (hnext : next.Spans ring.start ring.finish ring.maxRows) :
      Ends (frozen.anchor marker) next
        (fun _ after => after.Spans ring.start ring.finish ring.maxRows)
        (fun _ after => after.Spans ring.start ring.finish ring.maxRows) := by
    unfold anchor
    split
    · exact hnext
    · dsimp only
      rw [ends_bind]
      apply (ends_onArchive_frame _).imp
      · rintro _ _ ⟨archive, rfl⟩
        exact hnext.withArchive archive
      · rintro e _ ⟨archive, rfl⟩
        exact hnext.withArchive archive
  unfold rewrap
  rw [ends_bind, ends_get]
  split
  · exact h.keepsBounds h.spans
  · rw [ends_bind, ends_get, ends_bind]
    have hcount : ring.writable + (ring.finish - ring.writable) ≤ ring.finish := by
      have := h.writable_le_finish
      omega
    apply (h.spans.ends_freezeRows hcount).imp
    · rintro _ next ⟨hnext, -⟩
      rw [ends_bind, ends_get, ends_bind]
      apply (Ends.mapM_invariant (hanchor next) markers hnext).imp
      · intro anchors next' hnext'
        rw [ends_bind]
        apply (ends_onArchive_frame _).imp
        · rintro layout _ ⟨archive, rfl⟩
          dsimp only
          rw [ends_bind]
          apply (ends_onArchive_frame _).imp
          · rintro log _ ⟨archive, rfl⟩
            rw [ends_bind, ends_modify, ends_pure]
            have hmaxRows := hnext.maxRows_eq.trans hnext'.maxRows_eq.symm
            refine ⟨⟨?_, Nat.le_refl _, ?_, hnext'.maxRows_eq ▸ h.maxRows_pos⟩, fun _ => ?_⟩
            all_goals
              simp only [size]
              omega
          · rintro e _ ⟨archive, rfl⟩
            exact h.keepsBounds (hnext'.withArchive archive)
        · rintro e _ ⟨archive, rfl⟩
          exact h.keepsBounds (hnext'.withArchive archive)
      · exact fun e after hafter => h.keepsBounds hafter
    · exact fun e after hafter => h.keepsBounds hafter

variable {κ : Type} [Sink κ]

theorem ends_writeTo (h : ring.Bounded) (sink : κ) :
    Ends (writeTo sink) ring (fun _ => ring.KeepsBounds) (fun _ => ring.KeepsBounds) := by
  have hkeeps (archive : Archive σ) : ring.KeepsBounds { ring with archive } :=
    h.keepsBounds (h.spans.withArchive archive)
  rw [Ring.ends_writeTo]
  apply Ends.of_forall
  · intro _ copied
    exact Ends.of_forall (fun _ _ => hkeeps copied.1) fun _ _ => hkeeps copied.1
  · exact fun _ copied => hkeeps copied.1

theorem ends_operate (h : ring.Bounded) (operation : Operation κ) :
    Ends (operate operation) ring (fun _ => ring.KeepsBounds)
      (fun e after => after.Bounded ∧ (ring.KeepsBounds after
        ∨ ∃ maxRows, operation = .call (.resize maxRows)
          ∧ resize maxRows ring = .error e after)) := by
  cases operation with
  | call c =>
    rw [operate, operateWith, ends_bind]
    apply (h.ends_call c).imp
    · exact fun _ after hafter => hafter
    · rintro e after ⟨hbounded, hkeeps | ⟨maxRows, rfl, hresult⟩⟩
      · exact ⟨hbounded, Or.inl hkeeps⟩
      · exact ⟨hbounded, Or.inr ⟨maxRows, rfl, hresult⟩⟩
  | rewrap columns markers =>
    rw [operate, operateWith, ends_bind]
    apply (h.ends_rewrap columns markers).imp
    · exact fun _ after hafter => hafter
    · exact fun e after hafter => ⟨hafter.1, Or.inl hafter⟩
  | writeContents sink =>
    rw [operate, operateWith, ends_bind]
    apply (h.ends_writeTo sink).imp
    · exact fun _ after hafter => hafter
    · exact fun e after hafter => ⟨hafter.1, Or.inl hafter⟩

end Bounded

theorem bounded_ofLogs [ByteLog σ] (maxRows windowRows : Nat) (rows text attributes : σ) :
    (ofLogs maxRows windowRows rows text attributes).Bounded where
  start_le_writable := Nat.le_refl 0
  writable_le_finish := Nat.le_refl 0
  size_le_capacity := Nat.zero_le _
  maxRows_pos := Nat.lt_of_lt_of_le Nat.one_pos (Nat.le_max_right maxRows 1)

theorem after_append_singleton {κ : Type} [ByteLog σ] [Sink κ] (ring : Ring σ)
    (operations : List (Operation κ)) (operation : Operation κ) :
    ring.after (operations ++ [operation])
      =
    final (operate operation) (ring.after operations) := by
  simp [after]

def FailsToResize {κ : Type} [ByteLog σ] [Sink κ] (ring : Ring σ)
    (operations : List (Operation κ)) : Prop :=
  ∃ (k limit : Nat) (e : RingError) (failed : Ring σ),
    operations[k]? = some (.call (.resize limit))
      ∧ resize limit (ring.after (operations.take k)) = .error e failed

theorem FailsToResize.append {κ : Type} [ByteLog σ] [Sink κ] {operations : List (Operation κ)}
    (h : ring.FailsToResize operations) (operation : Operation κ) :
    ring.FailsToResize (operations ++ [operation]) := by
  obtain ⟨k, limit, e, failed, hk, hfailed⟩ := h
  have hlt := (List.getElem?_eq_some_iff.mp hk).1
  refine ⟨k, limit, e, failed, ?_, ?_⟩
  · rw [List.getElem?_append_left hlt, hk]
  · rw [List.take_append_of_le_length (Nat.le_of_lt hlt), hfailed]

theorem Bounded.after {κ : Type} [ByteLog σ] [Sink κ] (h : ring.Bounded)
    (hsize : ring.size ≤ ring.maxRows) (operations : List (Operation κ)) :
    (ring.after operations).Bounded
      ∧ ((ring.after operations).size ≤ (ring.after operations).maxRows
        ∨ ring.FailsToResize operations) := by
  induction operations using List.reverseRecOn with
  | nil => exact ⟨h, Or.inl hsize⟩
  | append_singleton operations operation ih =>
    obtain ⟨hbounded, ih⟩ := ih
    have hkeeps {next : Ring σ} (hnext : (ring.after operations).KeepsBounds next) :
        next.size ≤ next.maxRows ∨ ring.FailsToResize (operations ++ [operation]) := by
      rcases ih with hle | hfails
      · exact Or.inl (hnext.2 hle)
      · exact Or.inr (hfails.append operation)
    rw [after_append_singleton]
    apply Ends.final (p := fun next : Ring σ => next.Bounded ∧ (next.size ≤ next.maxRows
      ∨ ring.FailsToResize (operations ++ [operation])))
    apply (hbounded.ends_operate operation).imp
    · exact fun _ next hnext => ⟨hnext.1, hkeeps hnext⟩
    · rintro e failed ⟨hfailed, hnext | ⟨limit, rfl, hresult⟩⟩
      · exact ⟨hfailed, hkeeps hnext⟩
      · refine ⟨hfailed, Or.inr ⟨operations.length, limit, e, failed, ?_, ?_⟩⟩
        · simp
        · rw [List.take_left, hresult]

end Ring

/--
Whatever the logs do, the rows of a ring are in order after every operation, and those that can be
edited are in the window. There are at most as many rows as the limit says unless a call that set the
limit has failed.
-/
theorem Ring.bounds_after {σ κ : Type} [ByteLog σ] [Sink κ] (maxRows windowRows : Nat)
    (rows text attributes : σ) (operations : List (Operation κ)) :
    let initial := ofLogs maxRows windowRows rows text attributes
    let ring := initial.after operations
    ring.start ≤ ring.writable ∧ ring.writable ≤ ring.finish
      ∧ ring.finish - ring.writable ≤ ring.window.capacity
      ∧ (ring.finish - ring.start ≤ ring.maxRows ∨ initial.FailsToResize operations) := by
  intro initial ring
  obtain ⟨hbounded, hsize⟩ := (bounded_ofLogs maxRows windowRows rows text attributes).after
    (Nat.zero_le _) operations
  exact ⟨hbounded.start_le_writable, hbounded.writable_le_finish, hbounded.size_le_capacity, hsize⟩

/--
A limit that could not be lowered to two rows because the row log could not be read. Three rows are
left.
-/
theorem Ring.maxRows_lt_size_after_resize :
    let initial : Ring (SwitchedLog MemoryLog) :=
      ofLogs 3 1 { log := default, failReads := true } { log := default } { log := default }
    let ring := initial.after
      ([.call (.append Row.empty), .call (.append Row.empty), .call (.append Row.empty),
        .call (.resize 2)] : List (Operation ByteArray))
    ring.maxRows < ring.finish - ring.start := by
  decide +kernel

end Scrollback
