import Scrollback.Proofs.Layout.Division
import Scrollback.Proofs.Ring.Rewrap

/-!
This module contains the part of the invariant of a ring that is about the text of its frozen rows.
Every operation keeps it, even those that fail because they find a change of style that cannot be read.
-/

namespace Scrollback

namespace Ring

variable {σ : Type} [ByteLog σ] [LawfulLog σ] {ring : Ring σ} {start finish index : Nat}
  {stored : List StoredRow} {room : EStateM RingError (Ring σ) Unit}

structure Stores (ring : Ring σ) (start finish : Nat) (stored : List StoredRow) : Prop where
  start_eq : ring.start = start
  finish_eq : ring.finish = finish
  writable_eq : ring.writable = start + stored.length
  writable_le : start + stored.length ≤ finish
  maxRows_pos : 0 < ring.maxRows
  archive : ring.archive.contents.Stores start stored
  cached : ∀ index row, ring.cache = some (index, row) →
    ∃ k frozen, index = start + k ∧ stored[k]? = some frozen ∧ frozen.ShownAs row

def StoresRows (ring : Ring σ) (start finish : Nat) : Prop :=
  ∃ stored, ring.Stores start finish stored

def IsStored (ring : Ring σ) : Prop :=
  ∃ start finish, ring.StoresRows start finish

namespace Stores

theorem storesRows (h : ring.Stores start finish stored) : ring.StoresRows start finish :=
  ⟨stored, h⟩

theorem isStored (h : ring.Stores start finish stored) : ring.IsStored :=
  ⟨start, finish, stored, h⟩

theorem withArchive (h : ring.Stores start finish stored) {archive : Archive σ}
    (hsame : ring.archive.contents.SameText archive.contents) :
    { ring with archive }.Stores start finish stored :=
  { h with archive := h.archive.of_sameText hsame }

theorem dropStaleCache (h : ring.Stores start finish stored) {after : Ring σ}
    {rest : List StoredRow} (first : Nat) (hrest : rest <+: stored.drop first)
    (hcache : after.cache = ring.cache) (hstart : after.start = start + first)
    (hwritable : after.writable = start + first + rest.length)
    (hle : start + first + rest.length ≤ after.finish) (hmaxRows : 0 < after.maxRows)
    (harchive : after.archive.contents.Stores (start + first) rest) :
    after.dropStaleCache.Stores (start + first) after.finish rest := by
  refine ⟨hstart, rfl, hwritable, hle, hmaxRows, harchive, ?_⟩
  intro index row hindex
  simp only [Ring.dropStaleCache, hcache, Option.filter_eq_some_iff, Bool.and_eq_true,
    decide_eq_true_eq] at hindex
  obtain ⟨hindex, hrange⟩ := hindex
  obtain ⟨k, frozen, rfl, hk, hrow⟩ := h.cached index row hindex
  refine ⟨k - first, frozen, by omega, ?_, hrow⟩
  obtain ⟨later, hlater⟩ := hrest
  have hget : (stored.drop first)[k - first]? = some frozen := by
    rw [List.getElem?_drop, show first + (k - first) = k by omega]
    exact hk
  rwa [← hlater, List.getElem?_append_left (by omega)] at hget

theorem ends_room (hroom : Grows room) (h : ring.Stores start finish stored) :
    Ends room ring (fun _ after => after.Stores start finish stored)
      (fun _ after => after.Stores start finish stored) := by
  apply hroom.ends_frame.imp
  · rintro _ _ ⟨window, rfl⟩
    exact { h with }
  · rintro _ _ rfl
    exact h

theorem ends_thawNewestWith (hroom : Grows room) {row : StoredRow}
    (h : ring.Stores start finish (stored ++ [row])) :
    Ends (thawNewestWith room) ring (fun _ after => after.Stores start finish stored)
      (fun _ after => after.Stores start finish (stored ++ [row])) := by
  unfold thawNewestWith
  rw [ends_bind]
  apply (h.ends_room hroom).imp
  · intro _ ring h
    have hrow : (stored ++ [row])[stored.length]? = some row := by
      simp
    have hwritable := h.writable_eq
    have hle := h.writable_le
    rw [List.length_append, List.length_singleton] at hwritable hle
    have hindex : ring.writable - 1 = start + stored.length := by
      omega
    rw [ends_bind, ends_get]
    dsimp only
    rw [ends_bind, ends_onArchive, hindex]
    apply (h.archive.ends_thaw ring.archive hrow).imp
    · intro thawed archive hafter
      rw [List.take_left] at hafter
      rw [ends_modify]
      rw [← h.finish_eq]
      apply h.dropStaleCache 0
      · exact List.prefix_append stored [row]
      · rfl
      · exact h.start_eq
      · rfl
      · dsimp only
        have := h.finish_eq
        omega
      · exact h.maxRows_pos
      · exact hafter
    · exact fun e archive hsame => h.withArchive hsame
  · exact fun e after h => h

theorem ends_thawRowsWith (hroom : Grows room) (thawed : List StoredRow)
    (h : ring.Stores start finish (stored ++ thawed)) :
    Ends (thawRowsWith room thawed.length) ring (fun _ after => after.Stores start finish stored)
      (fun _ after => after.StoresRows start finish) := by
  induction thawed using List.reverseRecOn generalizing ring with
  | nil =>
    rw [List.append_nil] at h
    exact h
  | append_singleton thawed row ih =>
    rw [← List.append_assoc] at h
    rw [List.length_append, List.length_singleton, thawRowsWith, ends_bind]
    apply (h.ends_thawNewestWith hroom).imp
    · exact fun _ next hnext => ih hnext
    · exact fun e after hafter => hafter.storesRows

theorem ends_ensureWritableWith (hroom : Grows room) (h : ring.Stores start finish stored)
    (hindex : start ≤ index) :
    Ends (ensureWritableWith room index) ring
      (fun _ after => after.Stores start finish (stored.take (index - start)))
      (fun _ after => after.StoresRows start finish) := by
  have hwritable := h.writable_eq
  have hlength : ring.writable - index = (stored.drop (index - start)).length := by
    rw [List.length_drop]
    omega
  unfold ensureWritableWith
  rw [ends_bind, ends_get, hlength]
  rw [← List.take_append_drop (index - start) stored] at h
  exact h.ends_thawRowsWith hroom _

theorem ends_freezeOldest (h : ring.Stores start finish stored)
    (hlive : start + stored.length < finish) :
    Ends freezeOldest ring
      (fun _ after => after.archive.InRange → ∃ row, after.Stores start finish (stored ++ [row]))
      (fun _ after => after.Stores start finish stored) := by
  have hbefore : ring.archiveBeforeFreeze.contents.Stores start stored := by
    rw [contents_archiveBeforeFreeze, ArchiveContents.beforeFreeze]
    split
    · next heq =>
      have hnil : stored = [] := by
        rw [← List.length_eq_zero_iff]
        have := h.start_eq
        have := h.writable_eq
        omega
      rw [hnil, heq, h.start_eq]
      exact .none _ _ _
    · exact h.archive
  rw [Ring.ends_freezeOldest]
  apply (Archive.ends_freeze ring.archiveBeforeFreeze _).imp
  · intro _ archive hafter hrange
    rw [Archive.inRange_iff] at hrange
    dsimp only at hrange
    rw [hafter] at hrange
    obtain ⟨row, hstored⟩ := hbefore.freeze hrange
    have hwritable : ring.writable + 1 = start + (stored ++ [row]).length := by
      rw [h.writable_eq, List.length_append, List.length_singleton, Nat.add_assoc]
    refine ⟨row, h.start_eq, h.finish_eq, hwritable, ?_, h.maxRows_pos, hafter ▸ hstored, ?_⟩
    · rw [List.length_append, List.length_singleton]
      exact hlive
    · intro index cached hcached
      obtain ⟨k, frozen, hindex, hk, hcached⟩ := h.cached index cached hcached
      refine ⟨k, frozen, hindex, ?_, hcached⟩
      rw [List.getElem?_append_left (List.getElem?_eq_some_iff.mp hk).1]
      exact hk
  · rintro e archive ⟨-, hafter⟩
    exact { h with archive := hafter ▸ hbefore }

theorem ends_freezeRows (h : ring.Stores start finish stored) {count : Nat}
    (hlive : start + stored.length + count ≤ finish) :
    Ends (freezeRows count) ring
      (fun _ after => after.archive.InRange →
        ∃ rows, rows.length = count ∧ after.Stores start finish (stored ++ rows))
      (fun _ after => after.archive.InRange → after.StoresRows start finish) := by
  induction count generalizing ring stored with
  | zero => exact fun _ => ⟨[], rfl, by rwa [List.append_nil]⟩
  | succ count ih =>
    rw [freezeRows, ends_bind]
    apply (h.ends_freezeOldest (by omega)).imp
    · intro _ next hnext
      by_cases hrange : next.archive.InRange
      · obtain ⟨row, hnext⟩ := hnext hrange
        apply (ih hnext (by rw [List.length_append, List.length_singleton]; omega)).imp
        · intro _ after hafter hrange
          obtain ⟨rows, hrows, hafter⟩ := hafter hrange
          refine ⟨row :: rows, by rw [List.length_cons, hrows], ?_⟩
          rwa [List.append_assoc] at hafter
        · exact fun e after hafter => hafter
      · -- The offsets do not come back into range.
        apply (ends_freezeRows_inRange next count).imp
        · exact fun _ after hafter hrange' => absurd (hafter hrange') hrange
        · exact fun e after herr hrange' => absurd (herr.2 hrange') hrange
    · exact fun e after hafter _ => hafter.storesRows

theorem ends_dropBefore (h : ring.Stores start finish stored) (hindex : start ≤ index)
    (hfinish : index ≤ finish) :
    Ends (dropBefore index) ring (fun _ after => after.StoresRows index finish)
      (fun _ after => after.StoresRows start finish) := by
  have hwritable := h.writable_eq
  obtain ⟨k, rfl⟩ := Nat.exists_eq_add_of_le hindex
  unfold dropBefore
  rw [ends_bind, ends_get]
  split
  · next hlt =>
    have hk : k < stored.length := by omega
    obtain ⟨row, hrow⟩ : ∃ row, stored[k]? = some row := ⟨_, List.getElem?_eq_getElem hk⟩
    rw [ends_bind, ends_onArchive]
    apply (h.archive.yields_readEntry hrow ring.archive (.refl _)).imp
    · rintro _ archive ⟨rfl, hsame⟩
      have hadvance := (h.archive.of_sameText hsame).advanceTails hrow
      rw [← Archive.contents_advanceTails] at hadvance
      have hlength : start + k + (stored.drop k).length = start + stored.length := by
        rw [List.length_drop]
        omega
      rw [ends_bind, ends_modify, ends_modify]
      refine ⟨stored.drop k, ?_⟩
      rw [← h.finish_eq]
      apply h.dropStaleCache k (List.prefix_refl _)
      · rfl
      · rfl
      · rw [hlength]
        exact hwritable
      · rw [hlength]
        exact h.finish_eq ▸ h.writable_le
      · exact h.maxRows_pos
      · exact hadvance
    · exact fun e archive hsame => (h.withArchive hsame).storesRows
  · rw [ends_bind, ends_modify, ends_modify]
    refine ⟨[], ?_⟩
    rw [← h.finish_eq]
    apply h.dropStaleCache k List.nil_prefix
    · rfl
    · rfl
    · rfl
    · exact h.finish_eq ▸ hfinish
    · exact h.maxRows_pos
    · rw [Archive.contents_reset]
      exact .none _ _ _

theorem start_le_finish (h : ring.Stores start finish stored) : start ≤ finish :=
  Nat.le_of_add_right_le h.writable_le

theorem ends_evict (h : ring.Stores start finish stored) :
    Ends evict ring (fun _ after => ∃ first, first ≤ finish ∧ after.StoresRows first finish)
      (fun _ after => after.StoresRows start finish) := by
  have hmaxRows := h.maxRows_pos
  unfold evict size
  rw [ends_bind, ends_get, h.finish_eq, h.start_eq]
  split
  · have hlt : start + 1 ≤ finish := by omega
    apply (h.ends_dropBefore (Nat.le_succ start) hlt).imp
    · exact fun _ after hafter => ⟨start + 1, hlt, hafter⟩
    · exact fun e after hafter => hafter
  · exact ⟨start, h.start_le_finish, h.storesRows⟩

theorem ends_settleWith (hroom : Grows room) (h : ring.Stores start finish stored) (keep : Nat) :
    Ends (settleWith room keep) ring
      (fun _ after => after.archive.InRange → after.IsStored)
      (fun _ after => after.IsStored) := by
  have hwritable := h.writable_eq
  have hfinish := h.finish_eq
  unfold settleWith
  rw [ends_bind, ends_get]
  dsimp only
  split
  · apply (h.ends_freezeOldest (by omega)).imp
    · intro _ after hafter hrange
      obtain ⟨row, hafter⟩ := hafter hrange
      exact hafter.isStored
    · exact fun e after hafter => hafter.isStored
  · apply (h.ends_room hroom).imp
    · exact fun _ after hafter _ => hafter.isStored
    · exact fun e after hafter => hafter.isStored

theorem ends_insertWith (hroom : Grows room) (h : ring.Stores start finish stored) (index : Nat) :
    Ends (insertWith room index) ring
      (fun _ after => after.archive.InRange → after.IsStored)
      (fun _ after => after.IsStored) := by
  unfold insertWith
  rw [ends_bind, ends_requireBound]
  split
  · rw [ends_bind]
    apply h.ends_evict.imp
    · rintro _ next ⟨first, -, stored, hnext⟩
      rw [ends_bind, ends_get]
      dsimp only
      rw [hnext.start_eq, ends_bind]
      apply (hnext.ends_ensureWritableWith hroom (Nat.le_max_right index first)).imp
      · intro _ next hnext
        rw [ends_bind]
        apply (hnext.ends_room hroom).imp
        · intro _ next hnext
          rw [ends_bind, ends_modify, ends_bind]
          have hinserted : { next with
              window := (next.window.moveUp (max index first)
                (next.finish - max index first)).set (max index first) Row.empty
              finish := next.finish + 1 }.Stores first (finish + 1)
                (stored.take (max index first - first)) :=
            { hnext with
              finish_eq := congrArg (· + 1) hnext.finish_eq
              writable_le := Nat.le_succ_of_le hnext.writable_le }
          exact hinserted.ends_settleWith hroom _
        · exact fun e after hafter => hafter.isStored
      · exact fun e after hafter => ⟨first, finish, hafter⟩
    · exact fun e after hafter => ⟨start, finish, hafter⟩
  · exact h.isStored

theorem ends_assignWith (hroom : Grows room) (h : ring.Stores start finish stored) (index : Nat)
    (row : Row) :
    Ends (assignWith room index row) ring (fun _ after => after.IsStored)
      (fun _ after => after.IsStored) := by
  unfold assignWith editWith
  rw [ends_bind, ends_requireRow]
  split
  · next hindex =>
    rw [ends_bind]
    apply (h.ends_ensureWritableWith hroom (h.start_eq ▸ hindex.1)).imp
    · intro _ next hnext
      rw [ends_bind, ends_get]
      dsimp only
      rw [ends_bind, ends_set, ends_pure]
      exact isStored { hnext with }
    · exact fun e after hafter => ⟨start, finish, hafter⟩
  · exact h.isStored

theorem ends_eraseWith (hroom : Grows room) (h : ring.Stores start finish stored) (index : Nat) :
    Ends (eraseWith room index) ring (fun _ after => after.IsStored)
      (fun _ after => after.IsStored) := by
  unfold eraseWith
  rw [ends_bind, ends_requireRow, h.start_eq, h.finish_eq]
  split
  · next hindex =>
    rw [ends_bind]
    apply (h.ends_ensureWritableWith hroom hindex.1).imp
    · intro _ next hnext
      rw [ends_bind, ends_get]
      dsimp only
      rw [ends_bind, ends_set, ends_pure]
      have hle : start + (stored.take (index - start)).length ≤ finish - 1 := by
        rw [List.length_take]
        omega
      exact ⟨start, finish - 1, _, { hnext with
        finish_eq := congrArg (· - 1) hnext.finish_eq
        writable_le := hle }⟩
    · exact fun e after hafter => ⟨start, finish, hafter⟩
  · exact h.isStored

theorem ends_resize (h : ring.Stores start finish stored) (maxRows : Nat) :
    Ends (resize maxRows) ring (fun _ after => after.IsStored) (fun _ after => after.IsStored) := by
  have hstart := h.start_eq
  have hfinish := h.finish_eq
  have hresized : { ring with maxRows := max maxRows 1 }.Stores start finish stored :=
    { h with maxRows_pos := Nat.le_max_right maxRows 1 }
  unfold resize size
  rw [ends_bind, ends_modify, ends_bind, ends_get]
  dsimp only
  split
  · have hindex : start ≤ ring.finish - max maxRows 1 ∧ ring.finish - max maxRows 1 ≤ finish := by
      omega
    apply (hresized.ends_dropBefore hindex.1 hindex.2).imp
    · exact fun _ after hafter => ⟨_, finish, hafter⟩
    · exact fun e after hafter => ⟨start, finish, hafter⟩
  · exact hresized.isStored

theorem ends_shrink (h : ring.Stores start finish stored) (rows : Nat) :
    Ends (shrink rows) ring (fun _ after => after.IsStored) (fun _ after => after.IsStored) := by
  have hwritable := h.writable_eq
  unfold shrink size
  rw [ends_bind, ends_get, h.start_eq, h.finish_eq]
  split
  · next hrows =>
    dsimp only
    split
    · next hlt =>
      have hk : rows < stored.length := by omega
      obtain ⟨row, hrow⟩ : ∃ row, stored[rows]? = some row := ⟨_, List.getElem?_eq_getElem hk⟩
      have hlength : (stored.take rows).length = rows := List.length_take_of_le (Nat.le_of_lt hk)
      rw [ends_bind, ends_onArchive]
      apply (h.archive.ends_truncate ring.archive hrow).imp
      · intro _ archive hafter
        rw [ends_bind, ends_modify, ends_modify]
        have hcut : { ring with archive, writable := start + rows }.dropStaleCache.Stores start
            ring.finish (stored.take rows) := by
          apply h.dropStaleCache 0 (List.take_prefix rows stored)
          · rfl
          · exact h.start_eq
          · exact congrArg (start + ·) hlength.symm
          · rw [hlength, h.finish_eq]
            omega
          · exact h.maxRows_pos
          · exact hafter
        exact ⟨start, start + rows, _, { hcut with
          finish_eq := rfl
          writable_le := Nat.add_le_add_left (Nat.le_of_eq hlength) start }⟩
      · exact fun e archive hsame => (h.withArchive hsame).isStored
    · rw [ends_modify]
      exact ⟨start, start + rows, stored, { h with
        finish_eq := rfl
        writable_le := by omega }⟩
  · exact h.isStored

theorem ends_dropScrollback (h : ring.Stores start finish stored) (index : Nat) :
    Ends (dropScrollback index) ring (fun _ after => after.IsStored) (fun _ after => after.IsStored) := by
  unfold dropScrollback
  rw [ends_bind, ends_requireBound, h.start_eq, h.finish_eq]
  split
  · next hindex =>
    rw [ends_bind, ends_get]
    split
    · apply (h.ends_dropBefore hindex.1 hindex.2).imp
      · exact fun _ after hafter => ⟨index, finish, hafter⟩
      · exact fun e after hafter => ⟨start, finish, hafter⟩
    · exact h.isStored
  · exact h.isStored

theorem clear (h : ring.Stores start finish stored) : ring.clear.IsStored := by
  have hfinish : ring.finish = start + (finish - start) := by
    rw [h.finish_eq, Nat.add_sub_of_le h.start_le_finish]
  refine ⟨_, _, [], h.dropStaleCache (finish - start) List.nil_prefix ?_ hfinish hfinish ?_
    h.maxRows_pos ?_⟩
  · rfl
  · exact Nat.le_of_eq hfinish.symm
  · rw [← hfinish, Archive.contents_reset]
    exact .none _ _ _

theorem ends_row (h : ring.Stores start finish stored) (index : Nat) :
    Ends (Ring.row index) ring
      (fun row after => after.Stores start finish stored
        ∧ (ring.writable ≤ index → row = ring.window.row index)
        ∧ ∀ k frozen, index = start + k → stored[k]? = some frozen → frozen.ShownAs row)
      (fun _ after => after.Stores start finish stored) := by
  have hwritable := h.writable_eq
  unfold Ring.row
  rw [ends_bind, ends_requireRow, h.start_eq]
  split
  · next hindex =>
    rw [ends_bind, ends_get]
    split
    · next hle =>
      refine ⟨h, fun _ => rfl, fun k frozen hk hfrozen => ?_⟩
      have := (List.getElem?_eq_some_iff.mp hfrozen).1
      omega
    · next hlt =>
      split
      · next row hcached =>
        refine ⟨h, fun hle => absurd hle hlt, fun k frozen hk hfrozen => ?_⟩
        rw [cached?, Option.map_eq_some_iff] at hcached
        obtain ⟨⟨place, _⟩, hcached, rfl⟩ := hcached
        rw [Option.filter_eq_some_iff, decide_eq_true_eq] at hcached
        obtain ⟨hcached, rfl⟩ := hcached
        obtain ⟨k', frozen', hk', hfrozen', hshown⟩ := h.cached _ _ hcached
        obtain rfl : k' = k := by omega
        rw [hfrozen, Option.some.injEq] at hfrozen'
        exact hfrozen' ▸ hshown
      · obtain ⟨k, rfl⟩ := Nat.exists_eq_add_of_le hindex.1
        obtain ⟨frozen, hfrozen⟩ : ∃ frozen, stored[k]? = some frozen :=
          ⟨_, List.getElem?_eq_getElem (by omega)⟩
        have hforgotten : { ring with cache := none }.Stores start finish stored :=
          { h with cached := by simp }
        rw [ends_bind, ends_set, ends_bind, ends_onArchive]
        apply (h.archive.yields_read hfrozen ring.archive (.refl _)).imp
        · rintro ⟨entry, row⟩ archive ⟨⟨-, hshown⟩, hsame⟩
          rw [ends_bind, ends_modify, ends_pure]
          refine ⟨{ hforgotten.withArchive hsame with cached := ?_ }, fun hle => absurd hle hlt,
            fun k' frozen' hk' hfrozen' => ?_⟩
          · intro index cached hcached
            rw [Option.some.injEq, Prod.mk.injEq] at hcached
            obtain ⟨rfl, rfl⟩ := hcached
            exact ⟨k, frozen, rfl, hfrozen, hshown⟩
          · obtain rfl : k = k' := by omega
            rw [hfrozen, Option.some.injEq] at hfrozen'
            exact hfrozen' ▸ hshown
        · exact fun e archive hsame => hforgotten.withArchive hsame
  · exact h

theorem ends_isSoftWrapped (h : ring.Stores start finish stored) (index : Nat) :
    Ends (Ring.isSoftWrapped index) ring
      (fun softWrapped after => after.Stores start finish stored
        ∧ (ring.writable ≤ index → softWrapped = (ring.window.row index).softWrapped)
        ∧ ∀ k frozen, index = start + k → stored[k]? = some frozen →
          softWrapped = frozen.entry.softWrapped)
      (fun e after => after.Stores start finish stored
        ∧ (start ≤ index ∧ index < finish → Archive.IsFault σ e)) := by
  have hwritable := h.writable_eq
  unfold Ring.isSoftWrapped
  rw [ends_bind, ends_requireRow, h.start_eq, h.finish_eq]
  split
  · next hindex =>
    rw [ends_bind, ends_get]
    split
    · refine ⟨h, fun _ => rfl, fun k frozen hk hfrozen => ?_⟩
      have := (List.getElem?_eq_some_iff.mp hfrozen).1
      omega
    · next hlt =>
      obtain ⟨k, rfl⟩ := Nat.exists_eq_add_of_le hindex.1
      obtain ⟨frozen, hfrozen⟩ : ∃ frozen, stored[k]? = some frozen :=
        ⟨_, List.getElem?_eq_getElem (by omega)⟩
      have hkept {archive : Archive σ} (harchive : archive.contents = ring.archive.contents) :
          { ring with archive }.Stores start finish stored :=
        h.withArchive (harchive ▸ .refl _)
      rw [ends_bind, ends_onArchive]
      apply (h.archive.reads_readEntry hfrozen).imp_ends rfl
      · intro archive harchive
        refine ⟨hkept harchive, fun hle => absurd hle hlt, fun k' frozen' hk' hfrozen' => ?_⟩
        obtain rfl : k = k' := by omega
        rw [hfrozen, Option.some.injEq] at hfrozen'
        rw [hfrozen']
      · exact fun e archive he harchive => ⟨hkept harchive, fun _ => he⟩
  · next hindex => exact ⟨h, fun hrange => absurd hrange hindex⟩

end Stores

end Ring

end Scrollback
