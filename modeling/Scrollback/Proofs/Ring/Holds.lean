import Scrollback.Proofs.Archive.Contents
import Scrollback.Proofs.Archive.Holds
import Scrollback.Proofs.Window.Growth
import Scrollback.Ring.Basic

/-!
This module contains the invariant of the ring: what its archive, its window and its cache hold when
it is the ring of given rows.
-/

namespace Scrollback

structure RingContents where
  start : Nat
  maxRows : Nat
  frozen : List FrozenRow
  live : List Row

namespace RingContents

def writable (contents : RingContents) : Nat :=
  contents.start + contents.frozen.length

def finish (contents : RingContents) : Nat :=
  contents.writable + contents.live.length

def rows (contents : RingContents) : List Row :=
  contents.frozen.map (·.line.toRow) ++ contents.live

theorem length_rows (contents : RingContents) :
    contents.start + contents.rows.length = contents.finish := by
  simp only [rows, finish, writable, List.length_append, List.length_map]
  omega

end RingContents

namespace Ring

variable {σ α : Type}

@[simp]
theorem ends_onArchive {action : EStateM RingError (Archive σ) α} {ring : Ring σ}
    {ok : α → Ring σ → Prop} {err : RingError → Ring σ → Prop} :
    Ends (onArchive action) ring ok err
      ↔
    Ends action ring.archive (fun a archive => ok a { ring with archive })
      (fun e archive => err e { ring with archive }) := by
  simp only [Ends, onArchive]
  cases action ring.archive <;> rfl

theorem ends_onWindow {ring : Ring σ} {action : EStateM RingError Window α}
    {ok : α → Ring σ → Prop} {err : RingError → Ring σ → Prop} :
    Ends (onWindow action) ring ok err
      ↔
    Ends action ring.window (fun a window => ok a { ring with window })
      (fun e window => err e { ring with window }) := by
  simp only [Ends, onWindow]
  cases action ring.window <;> rfl

theorem ends_ensureRoom_iff {ring : Ring σ} {ok : Unit → Ring σ → Prop}
    {err : RingError → Ring σ → Prop} :
    Ends ensureRoom ring ok err
      ↔
    if ring.visibleRows < ring.window.capacity
        ∧ ring.finish < ring.writable + ring.window.capacity then
      ok () ring
    else
      Ends
        (Window.grow Window.fits ring.writable (ring.finish - ring.writable)
          (max (add64 ring.visibleRows 1) (ring.finish - ring.writable + 1)))
        ring.window (fun _ window => ok () { ring with window })
        (fun e window => err e { ring with window }) := by
  unfold ensureRoom
  rw [ends_bind, ends_get]
  dsimp only
  split
  · rfl
  · rw [ends_onWindow]

theorem ends_ensureRoom_window {ring : Ring σ} {rows : List Row}
    (h : ring.window.Shows ring.writable rows) (hcount : ring.finish - ring.writable = rows.length) :
    Ends ensureRoom ring
      (fun _ after => ∃ window, after = { ring with window } ∧ window.Shows ring.writable rows
        ∧ rows.length < window.capacity)
      (fun e after => (∃ size, e = .alloc size ∧ 2 ^ 58 ≤ size) ∧ after = ring) := by
  rw [ends_ensureRoom_iff]
  split
  · next hroom => exact ⟨ring.window, rfl, h, by omega⟩
  · rw [hcount]
    apply (Window.ends_grow_capacity.and (h.ends_grow_shows _ _)).imp
    · rintro _ window ⟨⟨hwanted, -⟩, hwindow⟩
      exact ⟨window, rfl, hwindow, by omega⟩
    · rintro e window ⟨⟨-, hrefused, rfl⟩, -⟩
      exact ⟨hrefused.exists_size, rfl⟩

variable [ByteLog σ] [LawfulLog σ]

def IsFailure (σ : Type) [ByteLog σ] [LawfulLog σ] (e : RingError) : Prop :=
  Archive.IsFault σ e ∨ ∃ rows, e = .alloc rows ∧ 2 ^ 58 ≤ rows

def Cached (start : Nat) (frozen : List FrozenRow) (cache : Option (Nat × Row)) : Prop :=
  ∀ index row, cache = some (index, row) →
    ∃ k row', index = start + k ∧ frozen[k]? = some row' ∧ row = row'.line.toRow

structure Holds (ring : Ring σ) (contents : RingContents) : Prop where
  start_eq : ring.start = contents.start
  writable_eq : ring.writable = contents.writable
  finish_eq : ring.finish = contents.finish
  maxRows_eq : ring.maxRows = contents.maxRows
  archive : ∃ changes, ring.archive.contents.Holds contents.start contents.frozen changes
  window : ring.window.Shows contents.writable contents.live
  cached : Cached contents.start contents.frozen ring.cache
  flagsDefined : ∀ row ∈ contents.live, row.FlagsDefined

namespace Holds

variable {ring : Ring σ} {contents : RingContents}

theorem finish_sub_writable (h : ring.Holds contents) :
    ring.finish - ring.writable = contents.live.length := by
  rw [h.finish_eq, h.writable_eq, RingContents.finish, Nat.add_sub_cancel_left]

theorem writable_le_finish (h : ring.Holds contents) : ring.writable ≤ ring.finish := by
  rw [h.finish_eq, h.writable_eq, RingContents.finish]
  exact Nat.le_add_right _ _

theorem writable_eq_finish {start maxRows : Nat} {frozen : List FrozenRow}
    (h : ring.Holds { start, maxRows, frozen, live := [] }) : ring.writable = ring.finish := by
  rw [h.writable_eq, h.finish_eq]
  rfl

theorem withArchive (h : ring.Holds contents) {archive : Archive σ}
    (harchive : archive.contents = ring.archive.contents) :
    { ring with archive }.Holds contents :=
  { h with archive := harchive ▸ h.archive }

theorem cached_dropStaleCache (h : ring.Holds contents) (first count : Nat) (after : Ring σ)
    (hcache : after.cache = ring.cache) (hstart : after.start = contents.start + first)
    (hwritable : after.writable ≤ after.start + count) :
    Cached (contents.start + first) ((contents.frozen.drop first).take count)
      after.dropStaleCache.cache := by
  intro index row hcached
  simp only [dropStaleCache, hcache] at hcached
  rw [Option.filter_eq_some_iff] at hcached
  obtain ⟨hcached, hrange⟩ := hcached
  simp only [Bool.and_eq_true, decide_eq_true_eq] at hrange
  obtain ⟨k, frozen, rfl, hk, hrow⟩ := h.cached index row hcached
  refine ⟨k - first, frozen, by omega, ?_, hrow⟩
  rw [List.getElem?_take_of_lt (by omega), List.getElem?_drop, show first + (k - first) = k by omega]
  exact hk

theorem ends_ensureRoom (h : ring.Holds contents) :
    Ends ensureRoom ring
      (fun _ after => after.Holds contents ∧ contents.live.length < after.window.capacity)
      (fun e after => IsFailure σ e ∧ after.Holds contents) := by
  apply (ends_ensureRoom_window (h.writable_eq ▸ h.window) h.finish_sub_writable).imp
  · rintro _ _ ⟨window, rfl, hwindow, hlt⟩
    exact ⟨{ h with window := h.writable_eq ▸ hwindow }, hlt⟩
  · rintro e _ ⟨he, rfl⟩
    exact ⟨Or.inr he, h⟩

end Holds

end Ring

end Scrollback
