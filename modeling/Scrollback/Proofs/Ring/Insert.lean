import Scrollback.Proofs.Ring.Edit

/-!
This module contains the proof that rows are inserted as in a list from which the oldest row goes
when it is full.
-/

namespace Scrollback

theorem RingContents.Shows.freeze {start maxRows : Nat} {frozen : List FrozenRow} {row : Row}
    {live : List Row} {list : RowList}
    (h : RingContents.Shows { start, maxRows, frozen, live := row :: live } list) (entry : RowEntry) :
    RingContents.Shows
      { start, maxRows, frozen := frozen ++ [{ entry, line := row.styled }], live } list := by
  have hrows := h.rows
  rw [RingContents.rows] at hrows
  have hlength := hrows.length_eq
  simp only [List.length_append, List.length_map, List.length_cons] at hlength
  have hlt : frozen.length < list.rows.length := by omega
  obtain ⟨shown, hshown, hrow⟩ :=
    exists_getElem?_of_forall₂ hrows (List.getElem?_eq_getElem hlt)
  have hset := forall₂_set hrows hrow.normalize frozen.length
  rw [List.getElem?_append_right (Nat.le_of_eq (List.length_map _)), List.length_map,
    Nat.sub_self, List.getElem?_cons_zero, Option.some.injEq] at hshown
  rw [List.set_getElem_self, List.set_append_right _ _ (Nat.le_of_eq (List.length_map _)),
    List.length_map, Nat.sub_self, List.set_cons_zero, ← hshown, ← Row.toRow_styled] at hset
  refine ⟨h.start_eq, h.maxRows_eq, by simpa [RingContents.rows] using hset, ?_⟩
  intro k frozenRow row' hfrozen hrow' hwellFormed
  rcases Nat.lt_or_ge k frozen.length with hk | hk
  · rw [List.getElem?_append_left hk] at hfrozen
    exact h.line_eq k frozenRow row' hfrozen hrow' hwellFormed
  · have hk := (List.getElem?_eq_some_iff.mp hfrozen).1
    rw [List.length_append, List.length_singleton] at hk
    have hk : k = frozen.length := by omega
    rw [hk, List.getElem?_append_right (Nat.le_refl _), Nat.sub_self, List.getElem?_cons_zero,
      Option.some.injEq] at hfrozen
    rw [hk, List.getElem?_eq_getElem hlt, Option.some.injEq] at hrow'
    rw [hrow'] at hrow
    rw [← hfrozen]
    dsimp only
    rw [hshown, hrow.eq_of_wellFormed hwellFormed]

namespace RowList

@[simp]
theorem finish_evict (list : RowList) : list.evict.finish = list.finish := by
  have := list.maxRows_pos
  unfold evict
  split
  · simp only [drop, finish, List.length_drop]
    omega
  · rfl

theorem start_evict_le_finish (list : RowList) : list.evict.start ≤ list.finish := by
  rw [← list.finish_evict, finish]
  exact Nat.le_add_right _ _

theorem sub_start_evict_le {list : RowList} {index : Nat} (h : index ≤ list.finish) :
    index - list.evict.start ≤ list.evict.rows.length := by
  rw [← list.finish_evict, finish] at h
  exact Nat.sub_le_iff_le_add'.mpr h

end RowList

namespace Ring.Shows

variable {σ : Type} [ByteLog σ] [LawfulLog σ] {ring : Ring σ} {list : RowList}
  {room : EStateM RingError (Ring σ) Unit} {Failure : RingError → Prop}

theorem ends_evict (h : ring.Shows list) :
    Ends evict ring
      (fun _ after => after.Shows list.evict)
      (fun e after => Archive.IsFault σ e ∧ after.Shows list) := by
  have hpos := list.maxRows_pos
  unfold evict RowList.evict
  rw [ends_bind, ends_get, h.maxRows_eq, h.size_eq, h.start_eq]
  split
  · exact h.ends_dropBefore (by omega)
  · exact h

theorem ends_settleWith (hroom : MakesRoom room Failure) (h : ring.Shows list) {keep : Nat}
    (hkeep : ring.writable ≤ keep) :
    Ends (settleWith room keep) ring
      (fun _ after => after.archive.InRange → after.Shows list ∧ after.writable ≤ keep)
      (fun e after => Failure e ∧ after.Shows list) := by
  obtain ⟨⟨start, maxRows, frozen, live⟩, h, hlist⟩ := h
  have hwritable := h.writable_eq
  rw [RingContents.writable] at hwritable
  unfold settleWith
  rw [ends_bind, ends_get]
  dsimp only
  split
  · next hfull =>
    have hfinish := h.finish_eq
    rw [RingContents.finish, ← h.writable_eq] at hfinish
    dsimp only at hfinish
    cases live with
    | nil =>
      rw [List.length_nil] at hfinish
      omega
    | cons row live =>
      apply h.ends_freezeOldest.imp
      · intro _ after hafter hrange
        obtain ⟨entry, hafter⟩ := hafter hrange
        refine ⟨⟨_, hafter, hlist.freeze entry⟩, ?_⟩
        rw [hafter.writable_eq, RingContents.writable, List.length_append, List.length_singleton]
        dsimp only at hwritable ⊢
        omega
      · rintro e after ⟨he, hafter⟩
        exact ⟨hroom.of_isFault e he, _, hafter, hlist⟩
  · apply (hroom.ends h).imp
    · intro _ after hafter _
      refine ⟨⟨_, hafter.1, hlist⟩, ?_⟩
      rw [hafter.1.writable_eq, ← h.writable_eq]
      exact hkeep
    · rintro e after ⟨he, hafter⟩
      exact ⟨he, _, hafter, hlist⟩

theorem ends_insertWith (hroom : MakesRoom room Failure) (h : ring.Shows list) {index : Nat}
    (hstart : list.start ≤ index) (hfinish : index ≤ list.finish) :
    Ends (insertWith room index) ring
      (fun place after => place = max index list.evict.start
        ∧ (after.archive.InRange →
          after.Shows (list.insert index Row.empty) ∧ after.writable ≤ place))
      (fun e after => Failure e ∧ (after.Shows list ∨ after.Shows list.evict
        ∨ after.Shows (list.insert index Row.empty))) := by
  -- If an insertion fails, it did not begin, only the oldest row has gone, or the row was inserted.
  unfold insertWith
  rw [ends_bind, ends_requireBound, h.start_eq, h.finish_eq, if_pos ⟨hstart, hfinish⟩, ends_bind]
  apply h.ends_evict.imp
  · intro _ ring h
    rw [ends_bind, ends_get, h.start_eq]
    dsimp only
    rw [ends_bind]
    apply (h.ends_ensureWritableWith hroom (Nat.le_max_right _ _)).imp
    · rintro _ ring ⟨⟨contents, h, hlist⟩, hwritable⟩
      rw [h.writable_eq] at hwritable
      rw [ends_bind]
      apply (hroom.ends h).imp
      · rintro _ ring ⟨h, hfree⟩
        have hfinish' := h.finish_eq
        have hlength := contents.length_rows
        rw [hlist.rows.length_eq, hlist.start_eq] at hlength
        obtain ⟨j, hj⟩ := Nat.exists_eq_add_of_le hwritable
        have hcount : ring.finish - max index list.evict.start = contents.live.length - j := by
          rw [hj, hfinish', RingContents.finish]
          omega
        have hplace : index - list.evict.start = contents.frozen.length + j := by
          rw [RingContents.writable, hlist.start_eq] at hj
          omega
        have hle : j ≤ contents.live.length := by
          have := RowList.sub_start_evict_le hfinish
          rw [RingContents.finish, RingContents.writable, hlist.start_eq] at hlength
          omega
        have hshows : { ring with
            window := (ring.window.moveUp (max index list.evict.start)
                (ring.finish - max index list.evict.start)).set
              (max index list.evict.start) Row.empty
            finish := ring.finish + 1 }.Shows (list.insert index Row.empty) := by
          rw [RowList.insert, hplace, hcount, hj]
          exact ⟨_, h.insertIdx hfree hle (by decide), hlist.insertIdx (Row.ShownAs.refl _)⟩
        rw [ends_bind, ends_modify, ends_bind]
        apply (hshows.ends_settleWith hroom (by rw [← h.writable_eq] at hwritable; exact hwritable)).imp
        · exact fun _ after hafter => ⟨rfl, hafter⟩
        · rintro e after ⟨he, hafter⟩
          exact ⟨he, Or.inr (Or.inr hafter)⟩
      · rintro e after ⟨he, hafter⟩
        exact ⟨he, Or.inr (Or.inl ⟨contents, hafter, hlist⟩)⟩
    · rintro e after ⟨he, hafter⟩
      exact ⟨he, Or.inr (Or.inl hafter)⟩
  · rintro e after ⟨he, hafter⟩
    exact ⟨hroom.of_isFault e he, Or.inl hafter⟩

theorem ends_appendWith (hroom : MakesRoom room Failure) (h : ring.Shows list) :
    Ends (appendWith room) ring
      (fun place after => place = list.finish
        ∧ (after.archive.InRange →
          after.Shows (list.insert list.finish Row.empty) ∧ after.writable ≤ place))
      (fun e after => Failure e ∧ (after.Shows list ∨ after.Shows list.evict
        ∨ after.Shows (list.insert list.finish Row.empty))) := by
  unfold appendWith
  rw [ends_bind, ends_get, h.finish_eq]
  have hinsert := h.ends_insertWith hroom (Nat.le_add_right _ _ : list.start ≤ list.finish) (Nat.le_refl _)
  apply hinsert.imp
  · rintro _ after ⟨rfl, hafter⟩
    exact ⟨Nat.max_eq_left list.start_evict_le_finish, hafter⟩
  · exact fun e after herr => herr

end Ring.Shows

end Scrollback
