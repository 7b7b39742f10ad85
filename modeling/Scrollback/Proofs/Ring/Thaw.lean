import Scrollback.Proofs.Archive.Thaw
import Scrollback.Proofs.Ring.Growth

/-!
This module contains the proof that thawing rows changes where they are kept and nothing else.
-/

namespace Scrollback

namespace Ring

variable {σ : Type} [ByteLog σ] [LawfulLog σ] {ring : Ring σ}
  {room : EStateM RingError (Ring σ) Unit} {Failure : RingError → Prop}

namespace Holds

theorem ends_thawNewestWith (hroom : MakesRoom room Failure) {start maxRows : Nat}
    {frozen : List FrozenRow} {row : FrozenRow} {live : List Row}
    (h : ring.Holds { start, maxRows, frozen := frozen ++ [row], live }) :
    Ends (thawNewestWith room) ring
      (fun _ after => after.Holds { start, maxRows, frozen, live := row.line.toRow :: live })
      (fun e after =>
        Failure e ∧ after.Holds { start, maxRows, frozen := frozen ++ [row], live }) := by
  unfold thawNewestWith
  rw [ends_bind]
  apply (hroom.ends h).imp
  · rintro _ ring ⟨h, hfree⟩
    obtain ⟨changes, harchive⟩ := h.archive
    have hrow : (frozen ++ [row])[frozen.length]? = some row := by
      simp
    have hstart : ring.start = start := h.start_eq
    have hwritable := h.writable_eq
    have hfinish := h.finish_eq
    simp only [RingContents.finish, RingContents.writable, List.length_append,
      List.length_singleton] at hwritable hfinish
    have hindex : ring.writable - 1 = start + frozen.length := by
      omega
    rw [ends_bind, ends_get]
    dsimp only
    rw [ends_bind, ends_onArchive, hindex]
    apply (ArchiveContents.Holds.ends_thaw ring.archive harchive hrow).imp
    · rintro _ archive ⟨rfl, hafter⟩
      rw [ends_modify]
      constructor
      · exact h.start_eq
      · rfl
      · simp only [dropStaleCache, RingContents.finish, RingContents.writable, List.length_cons]
        omega
      · exact h.maxRows_eq
      · have hrewind := harchive.rewind hrow
        rw [List.take_left] at hrewind
        exact ⟨_, hafter ▸ hrewind⟩
      · have hlive := h.window
        rw [RingContents.writable, List.length_append, List.length_singleton, ← Nat.add_assoc]
          at hlive
        have hset := Window.Shows.nil.set hlive (by simpa using hfree) row.line.toRow
        exact hset
      · generalize hring : ({ ring with window := _, archive, writable := _ } : Ring σ) = after
        have hcached := h.cached_dropStaleCache 0 frozen.length after (by rw [← hring])
          (by rw [← hring]; exact hstart) (by rw [← hring]; dsimp only; omega)
        rw [List.drop_zero, List.take_left] at hcached
        exact hcached
      · rw [List.forall_mem_cons]
        refine ⟨?_, h.flagsDefined⟩
        exact (harchive.flagsDefined row (by simp)).toRow
    · rintro e archive ⟨he, hafter⟩
      exact ⟨hroom.of_isFault e he, h.withArchive hafter⟩
  · intro e ring herr
    exact herr

theorem ends_thawRowsWith (hroom : MakesRoom room Failure) {start maxRows : Nat}
    {frozen : List FrozenRow} (thawed : List FrozenRow) {live : List Row}
    (h : ring.Holds { start, maxRows, frozen := frozen ++ thawed, live }) :
    Ends (thawRowsWith room thawed.length) ring
      (fun _ after =>
        after.Holds { start, maxRows, frozen, live := thawed.map (·.line.toRow) ++ live })
      (fun e after => Failure e ∧ ∃ kept thawed', thawed = kept ++ thawed'
        ∧ after.Holds
          { start, maxRows, frozen := frozen ++ kept, live := thawed'.map (·.line.toRow) ++ live }) := by
  -- If thawing stops early, some of the rows are in the window.
  induction thawed using List.reverseRecOn generalizing ring live with
  | nil =>
    rw [List.append_nil] at h
    exact h
  | append_singleton thawed row ih =>
    rw [← List.append_assoc] at h
    rw [List.length_append, List.length_singleton, thawRowsWith, ends_bind]
    apply (h.ends_thawNewestWith hroom).imp
    · intro _ next hnext
      apply (ih hnext).imp
      · intro _ after hafter
        simpa using hafter
      · rintro e after ⟨he, kept, thawed', rfl, hafter⟩
        exact ⟨he, kept, thawed' ++ [row], by simp, by simpa using hafter⟩
    · rintro e after ⟨he, hafter⟩
      exact ⟨he, thawed ++ [row], [], by simp, by simpa using hafter⟩

end Holds

namespace Shows

variable {list : RowList}

theorem ends_ensureWritableWith (hroom : MakesRoom room Failure) (h : ring.Shows list)
    {index : Nat} (hindex : list.start ≤ index) :
    Ends (ensureWritableWith room index) ring
      (fun _ after => after.Shows list ∧ after.writable ≤ index)
      (fun e after => Failure e ∧ after.Shows list) := by
  obtain ⟨⟨start, maxRows, frozen, live⟩, h, hlist⟩ := h
  have hstart := hlist.start_eq
  have hwritable := h.writable_eq
  have hrows := hlist.rows
  simp only [RingContents.writable, RingContents.rows] at hstart hwritable hrows
  have hlength : ring.writable - index = (frozen.drop (index - start)).length := by
    rw [List.length_drop]
    omega
  unfold ensureWritableWith
  rw [ends_bind, ends_get, hlength]
  rw [← List.take_append_drop (index - start) frozen] at h hrows
  have hsame (frozen' : List FrozenRow) (live' : List Row) (hfrozen : frozen' <+: frozen)
      (heq : frozen'.map (·.line.toRow) ++ live'
        = (frozen.take (index - start) ++ frozen.drop (index - start)).map (·.line.toRow) ++ live) :
      RingContents.Shows { start, maxRows, frozen := frozen', live := live' } list :=
    { hlist with
      rows := by
        rw [RingContents.rows, heq]
        exact hrows
      line_eq := by
        intro k row row' hk
        apply hlist.line_eq
        obtain ⟨later, rfl⟩ := hfrozen
        rwa [List.getElem?_append_left (List.getElem?_eq_some_iff.mp hk).1] }
  apply (h.ends_thawRowsWith hroom _).imp
  · intro _ after hafter
    refine ⟨⟨_, hafter, hsame _ _ (List.take_prefix _ _)
      (by rw [List.map_append, List.append_assoc])⟩, ?_⟩
    rw [hafter.writable_eq, RingContents.writable, List.length_take]
    dsimp only
    omega
  · rintro e after ⟨he, kept, thawed', heq, hafter⟩
    refine ⟨he, _, hafter, hsame _ _ ?_ ?_⟩
    · refine ⟨thawed', ?_⟩
      rw [List.append_assoc, ← heq, List.take_append_drop]
    · rw [heq]
      simp only [List.map_append, List.append_assoc]

end Shows

end Ring

end Scrollback
