import Scrollback.Proofs.Archive.Release
import Scrollback.Proofs.Archive.Thaw
import Scrollback.Proofs.Ring.Shows
import Scrollback.Ring.Trim

/-!
This module contains the proof that rows are dropped at either end of a ring as from a list.
-/

namespace Scrollback

def RingContents.drop (contents : RingContents) (count : Nat) : RingContents :=
  { contents with
    start := contents.start + count
    frozen := contents.frozen.drop count
    live := contents.live.drop (count - contents.frozen.length) }

namespace RowList

def drop (list : RowList) (count : Nat) : RowList :=
  { list with start := list.start + count, rows := list.rows.drop count }

def take (list : RowList) (count : Nat) : RowList :=
  { list with rows := list.rows.take count }

def withMaxRows (list : RowList) (maxRows : Nat) : RowList :=
  { list with maxRows := max maxRows 1, maxRows_pos := by omega }

def resize (list : RowList) (maxRows : Nat) : RowList :=
  (list.withMaxRows maxRows).drop (list.rows.length - max maxRows 1)

def clear (list : RowList) : RowList :=
  list.drop list.rows.length

end RowList

def RingContents.take (contents : RingContents) (count : Nat) : RingContents :=
  { contents with
    frozen := contents.frozen.take count
    live := contents.live.take (count - contents.frozen.length) }

theorem RingContents.Shows.take {contents : RingContents} {list : RowList} (h : contents.Shows list)
    (count : Nat) : (contents.take count).Shows (list.take count) where
  start_eq := h.start_eq
  maxRows_eq := h.maxRows_eq
  rows := by
    have hrows : (contents.take count).rows = contents.rows.take count := by
      simp only [RingContents.rows, RingContents.take, List.take_append, List.length_map,
        List.map_take]
    rw [hrows]
    exact List.forall₂_take count h.rows
  line_eq := by
    intro k frozen row hfrozen hrow
    have hk : k < count := by
      have := (List.getElem?_eq_some_iff.mp hfrozen).1
      rw [RingContents.take, List.length_take] at this
      omega
    rw [RingContents.take, List.getElem?_take_of_lt hk] at hfrozen
    rw [RowList.take, List.getElem?_take_of_lt hk] at hrow
    exact h.line_eq k frozen row hfrozen hrow

theorem RingContents.Shows.drop {contents : RingContents} {list : RowList} (h : contents.Shows list)
    (count : Nat) : (contents.drop count).Shows (list.drop count) where
  start_eq := by rw [RingContents.drop, RowList.drop, h.start_eq]
  maxRows_eq := h.maxRows_eq
  rows := by
    have hrows : (contents.drop count).rows = contents.rows.drop count := by
      simp only [RingContents.rows, RingContents.drop, List.drop_append, List.length_map,
        List.map_drop]
    rw [hrows]
    exact List.forall₂_drop count h.rows
  line_eq := by
    intro k frozen row hfrozen hrow
    rw [RingContents.drop, List.getElem?_drop] at hfrozen
    rw [RowList.drop, List.getElem?_drop] at hrow
    exact h.line_eq (count + k) frozen row hfrozen hrow

namespace Ring

variable {σ : Type} [ByteLog σ] [LawfulLog σ] {ring : Ring σ}

namespace Holds

variable {contents : RingContents}

theorem drop (h : ring.Holds contents) {archive : Archive σ} {count writable : Nat}
    (hcount : contents.start + count ≤ contents.finish)
    (harchive : ∃ changes, archive.contents.Holds (contents.start + count)
      (contents.frozen.drop count) changes)
    (hwritable : writable = max contents.writable (contents.start + count)) :
    { ring with
      start := contents.start + count
      writable
      archive }.dropStaleCache.Holds (contents.drop count) := by
  have hfinish := h.finish_eq
  have hlive : count - contents.frozen.length ≤ contents.live.length := by
    simp only [RingContents.finish, RingContents.writable] at hcount
    omega
  have heq : writable = (contents.drop count).writable := by
    simp only [RingContents.writable, RingContents.drop, List.length_drop] at hwritable ⊢
    omega
  constructor
  · rfl
  · exact heq
  · simp only [RingContents.finish, RingContents.writable, RingContents.drop, List.length_drop,
      dropStaleCache] at *
    omega
  · exact h.maxRows_eq
  · exact harchive
  · have hdrop := h.window.drop hlive
    have : contents.writable + (count - contents.frozen.length) = (contents.drop count).writable := by
      simp only [RingContents.writable, RingContents.drop, List.length_drop]
      omega
    rw [this] at hdrop
    exact hdrop
  · generalize hring : ({ ring with start := _, writable := _, archive } : Ring σ) = after
    have hcached := h.cached_dropStaleCache count (contents.frozen.length - count) after
      (by rw [← hring]) (by rw [← hring])
      (by
        rw [← hring, heq]
        simp [RingContents.writable, RingContents.drop])
    rw [List.take_of_length_le (Nat.le_of_eq List.length_drop)] at hcached
    exact hcached
  · exact fun row hrow => h.flagsDefined row (List.mem_of_mem_drop hrow)

theorem ends_dropBefore_release (h : ring.Holds contents) (count : Nat)
    (hcount : contents.start + count ≤ contents.finish) :
    Ends (dropBefore (contents.start + count)) ring
      (fun _ after => after.Holds (contents.drop count)
        ∧ after.archive.contents
          = ring.archive.contents.release (contents.start + count)
            (contents.frozen[count]?.map FrozenRow.entry))
      (fun e after => Archive.IsFault σ e ∧ after.Holds contents) := by
  obtain ⟨changes, harchive⟩ := h.archive
  have hrelease := harchive.release count
  have hwritable := h.writable_eq
  rw [RingContents.writable] at hwritable
  unfold dropBefore
  rw [ends_bind, ends_get]
  split
  · next hlt =>
    -- The row that becomes the oldest is frozen, and its entry says how far the logs are released.
    have hrow := List.getElem?_eq_getElem (by omega : count < contents.frozen.length)
    rw [hrow] at hrelease ⊢
    rw [ends_bind, ends_onArchive]
    apply (harchive.reads_readEntry hrow).imp_ends rfl
    · intro archive hafter
      have hcontents := Archive.contents_advanceTails archive (contents.start + count)
        contents.frozen[count].entry
      rw [hafter] at hcontents
      rw [ends_bind, ends_modify, ends_modify]
      refine ⟨h.drop hcount (hcontents ▸ hrelease) ?_, hcontents⟩
      rw [RingContents.writable]
      dsimp only
      omega
    · intro e archive he hafter
      exact ⟨he, h.withArchive hafter⟩
  · next hge =>
    have hcontents := Archive.contents_reset ring.archive (contents.start + count)
    rw [List.getElem?_eq_none (by omega)] at hrelease ⊢
    rw [ends_bind, ends_modify, ends_modify]
    refine ⟨h.drop hcount (hcontents ▸ hrelease) ?_, hcontents⟩
    rw [RingContents.writable]
    dsimp only
    omega

theorem ends_dropBefore (h : ring.Holds contents) (count : Nat)
    (hcount : contents.start + count ≤ contents.finish) :
    Ends (dropBefore (contents.start + count)) ring
      (fun _ after => after.Holds (contents.drop count))
      (fun e after => Archive.IsFault σ e ∧ after.Holds contents) := by
  apply (h.ends_dropBefore_release count hcount).imp
  · exact fun _ after hafter => hafter.1
  · exact fun e after herr => herr

theorem take (h : ring.Holds contents) {archive : Archive σ} {cache : Option (Nat × Row)}
    {count writable : Nat} (hcount : contents.start + count ≤ contents.finish)
    (harchive : ∃ changes, archive.contents.Holds contents.start (contents.frozen.take count) changes)
    (hwritable : writable = min contents.writable (contents.start + count))
    (hcached : Cached contents.start (contents.frozen.take count) cache) :
    { ring with
      writable
      finish := contents.start + count
      archive
      cache }.Holds (contents.take count) := by
  have heq : writable = (contents.take count).writable := by
    simp only [RingContents.writable, RingContents.take, List.length_take] at hwritable ⊢
    omega
  constructor
  · exact h.start_eq
  · exact heq
  · simp only [RingContents.finish, RingContents.writable, RingContents.take,
      List.length_take] at hcount ⊢
    omega
  · exact h.maxRows_eq
  · exact harchive
  · by_cases hle : contents.frozen.length ≤ count
    · have htake := h.window.take (count - contents.frozen.length)
      rw [← heq, hwritable, Nat.min_eq_left (by rw [RingContents.writable]; omega)]
      exact htake
    · have hnil : (contents.take count).live = [] := by
        rw [RingContents.take, show count - contents.frozen.length = 0 by omega]
        rfl
      rw [hnil]
      exact Window.Shows.nil
  · exact hcached
  · exact fun row hrow => h.flagsDefined row (List.mem_of_mem_take hrow)

theorem ends_shrink (h : ring.Holds contents) (count : Nat) :
    Ends (shrink count) ring
      (fun _ after => after.Holds (contents.take count))
      (fun e after => Archive.IsFault σ e ∧ after.Holds contents) := by
  have hstart := h.start_eq
  have hwritable := h.writable_eq
  have hfinish := h.finish_eq
  have hcontents : contents.writable = contents.start + contents.frozen.length := rfl
  unfold shrink
  rw [ends_bind, ends_get]
  split
  · next hlt =>
    rw [Ring.size] at hlt
    dsimp only
    rw [hstart]
    split
    · next hfrozen =>
      have hcount : count < contents.frozen.length := by omega
      obtain ⟨changes, harchive⟩ := h.archive
      have hrow := List.getElem?_eq_getElem hcount
      rw [ends_bind, ends_onArchive]
      apply (ArchiveContents.Holds.ends_truncate ring.archive harchive hrow).imp
      · intro _ archive hafter
        rw [ends_bind, ends_modify, ends_modify]
        apply h.take (by omega) ⟨_, hafter ▸ harchive.rewind hrow⟩
        · dsimp only [dropStaleCache]
          omega
        · refine h.cached_dropStaleCache 0 count _ rfl hstart ?_
          dsimp only
          omega
      · rintro e archive ⟨he, hafter⟩
        exact ⟨he, h.withArchive hafter⟩
    · next hlive =>
      -- The frozen rows all stay. The window keeps its rows, some of them only do not count any more.
      have htake : contents.frozen.take count = contents.frozen :=
        List.take_of_length_le (by omega)
      rw [ends_modify]
      apply h.take (by omega)
      · rw [htake]
        exact h.archive
      · omega
      · rw [htake]
        exact h.cached
  · next hge =>
    have htake : contents.take count = contents := by
      rw [Ring.size] at hge
      simp only [RingContents.finish] at hfinish
      simp only [RingContents.take]
      rw [List.take_of_length_le (by omega), List.take_of_length_le (by omega)]
    rw [ends_pure, htake]
    exact h

end Holds

namespace Shows

variable {list : RowList}

theorem ends_dropBefore (h : ring.Shows list) {count : Nat} (hcount : count ≤ list.rows.length) :
    Ends (dropBefore (list.start + count)) ring
      (fun _ after => after.Shows (list.drop count))
      (fun e after => Archive.IsFault σ e ∧ after.Shows list) := by
  obtain ⟨contents, h, hlist⟩ := h
  have hlength := contents.length_rows
  rw [hlist.rows.length_eq] at hlength
  rw [← hlist.start_eq]
  apply (h.ends_dropBefore count (by omega)).imp
  · exact fun _ after hafter => ⟨_, hafter, hlist.drop count⟩
  · rintro e after ⟨he, hafter⟩
    exact ⟨he, contents, hafter, hlist⟩

theorem ends_resize (h : ring.Shows list) (maxRows : Nat) :
    Ends (resize maxRows) ring
      (fun _ after => after.Shows (list.resize maxRows))
      (fun e after => Archive.IsFault σ e ∧ after.Shows (list.withMaxRows maxRows)) := by
  -- The limit is there before the first row goes, also if dropping rows fails.
  have hlimit : { ring with maxRows := max maxRows 1 }.Shows (list.withMaxRows maxRows) := by
    obtain ⟨contents, h, hlist⟩ := h
    exact ⟨{ contents with maxRows := max maxRows 1 }, { h with maxRows_eq := rfl },
      { hlist with maxRows_eq := rfl }⟩
  unfold resize
  rw [ends_bind, ends_modify, ends_bind, ends_get]
  generalize ({ ring with maxRows := max maxRows 1 } : Ring σ) = ring at hlimit ⊢
  have hsize := hlimit.size_eq
  have hfinish := hlimit.finish_eq
  have hmaxRows := hlimit.maxRows_eq
  simp only [RowList.finish, RowList.withMaxRows] at hsize hfinish hmaxRows
  split
  · have hindex : ring.finish - ring.maxRows
        = (list.withMaxRows maxRows).start + (list.rows.length - max maxRows 1) := by
      simp only [RowList.withMaxRows]
      omega
    rw [hindex]
    exact hlimit.ends_dropBefore (Nat.sub_le _ _)
  · rw [ends_pure, RowList.resize, show list.rows.length - max maxRows 1 = 0 by omega]
    exact hlimit

theorem ends_dropScrollback (h : ring.Shows list) {count : Nat}
    (hcount : count ≤ list.rows.length) :
    Ends (dropScrollback (list.start + count)) ring
      (fun _ after => after.Shows (list.drop count))
      (fun e after => Archive.IsFault σ e ∧ after.Shows list) := by
  have hfinish := h.finish_eq
  unfold dropScrollback requireBound
  rw [ends_bind, ends_bind, ends_get, if_pos]
  · rw [ends_pure, ends_bind, ends_get, h.start_eq]
    split
    · exact h.ends_dropBefore hcount
    · next hge =>
      rw [ends_pure, show count = 0 by omega]
      exact h
  · rw [h.start_eq, hfinish, RowList.finish]
    simpa using hcount

theorem ends_shrink (h : ring.Shows list) (count : Nat) :
    Ends (shrink count) ring
      (fun _ after => after.Shows (list.take count))
      (fun e after => Archive.IsFault σ e ∧ after.Shows list) := by
  obtain ⟨contents, h, hlist⟩ := h
  apply (h.ends_shrink count).imp
  · exact fun _ after hafter => ⟨_, hafter, hlist.take count⟩
  · rintro e after ⟨he, hafter⟩
    exact ⟨he, contents, hafter, hlist⟩

theorem clear (h : ring.Shows list) : ring.clear.Shows list.clear := by
  obtain ⟨contents, h, hlist⟩ := h
  have hlength := contents.length_rows
  have hfrozen : contents.frozen.length ≤ list.rows.length := by
    rw [← hlist.rows.length_eq, RingContents.rows, List.length_append, List.length_map]
    omega
  rw [hlist.rows.length_eq] at hlength
  have harchive : ∃ changes,
      (ring.archive.reset (contents.start + list.rows.length)).contents.Holds
        (contents.start + list.rows.length) (contents.frozen.drop list.rows.length) changes := by
    rw [Archive.contents_reset, List.drop_of_length_le hfrozen]
    exact ⟨[], ArchiveContents.Holds.reset _ _⟩
  have hwritable : contents.start + list.rows.length
      = max contents.writable (contents.start + list.rows.length) := by
    rw [RingContents.writable]
    omega
  have hdrop := h.drop (Nat.le_of_eq hlength) harchive hwritable
  rw [hlength, ← h.finish_eq] at hdrop
  exact ⟨_, hdrop, hlist.drop list.rows.length⟩

theorem setVisibleRows (h : ring.Shows list) (rows : Nat) : (ring.setVisibleRows rows).Shows list := by
  obtain ⟨contents, h, hlist⟩ := h
  exact ⟨contents, { h with }, hlist⟩

end Shows

end Ring

end Scrollback
