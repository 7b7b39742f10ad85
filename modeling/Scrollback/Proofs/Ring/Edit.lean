import Scrollback.Proofs.Ring.Freeze
import Scrollback.Proofs.Ring.Thaw
import Scrollback.Proofs.Ring.Trim
import Scrollback.Ring.Edit

/-!
This module contains the proof that rows are read, edited, inserted and removed as in a list.
-/

namespace Scrollback

theorem exists_getElem?_of_forall₂ {α β : Type} {r : α → β → Prop} {l : List α} {l' : List β}
    (h : List.Forall₂ r l l') {i : Nat} {b : β} (hb : l'[i]? = some b) :
    ∃ a, l[i]? = some a ∧ r a b := by
  induction h generalizing i with
  | nil => simp at hb
  | cons hr _ ih =>
    cases i with
    | zero =>
      rw [List.getElem?_cons_zero, Option.some.injEq] at hb
      exact ⟨_, rfl, hb ▸ hr⟩
    | succ i => exact ih hb

section

variable {α β : Type} {r : α → β → Prop} {l : List α} {l' : List β} {a : α} {b : β}

theorem forall₂_set (h : List.Forall₂ r l l') (hr : r a b) (i : Nat) :
    List.Forall₂ r (l.set i a) (l'.set i b) := by
  induction h generalizing i with
  | nil => exact List.Forall₂.nil
  | cons hhead htail ih =>
    cases i with
    | zero => exact List.Forall₂.cons hr htail
    | succ i => exact List.Forall₂.cons hhead (ih i)

theorem forall₂_insertIdx (h : List.Forall₂ r l l') (hr : r a b) (i : Nat) :
    List.Forall₂ r (l.insertIdx i a) (l'.insertIdx i b) := by
  induction h generalizing i with
  | nil =>
    cases i with
    | zero => exact List.Forall₂.cons hr List.Forall₂.nil
    | succ i => exact List.Forall₂.nil
  | cons hhead htail ih =>
    cases i with
    | zero => exact List.Forall₂.cons hr (List.Forall₂.cons hhead htail)
    | succ i => exact List.Forall₂.cons hhead (ih i)

theorem forall₂_eraseIdx (h : List.Forall₂ r l l') (i : Nat) :
    List.Forall₂ r (l.eraseIdx i) (l'.eraseIdx i) := by
  induction h generalizing i with
  | nil => exact List.Forall₂.nil
  | cons hhead htail ih =>
    cases i with
    | zero => exact htail
    | succ i => exact List.Forall₂.cons hhead (ih i)

end

namespace RingContents

variable {contents : RingContents} {i : Nat} {row : Row}

theorem exists_live (hwritable : contents.writable ≤ contents.start + i)
    (hrow : contents.rows[i]? = some row) :
    ∃ j, contents.start + i = contents.writable + j ∧ contents.live[j]? = some row := by
  rw [writable] at *
  rw [rows, List.getElem?_append_right (by rw [List.length_map]; omega), List.length_map] at hrow
  exact ⟨_, by omega, hrow⟩

theorem exists_frozen (hwritable : contents.start + i < contents.writable)
    (hrow : contents.rows[i]? = some row) :
    ∃ frozen, contents.frozen[i]? = some frozen ∧ frozen.line.toRow = row := by
  rw [writable] at *
  rwa [rows, List.getElem?_append_left (by rw [List.length_map]; omega), List.getElem?_map,
    Option.map_eq_some_iff] at hrow

end RingContents

namespace Ring

variable {σ : Type} {ring : Ring σ}

section

variable {index : Nat} {ok : Unit → Ring σ → Prop} {err : RingError → Ring σ → Prop}

theorem ends_requireRow :
    Ends (requireRow index) ring ok err
      ↔
    if ring.start ≤ index ∧ index < ring.finish then
      ok () ring
    else
      err (.outside .row index ring.start ring.finish) ring := by
  by_cases h : ring.start ≤ index ∧ index < ring.finish <;> simp [requireRow, contains, h]

theorem ends_requireBound (use : IndexUse) :
    Ends (requireBound use index) ring ok err
      ↔
    if ring.start ≤ index ∧ index ≤ ring.finish then
      ok () ring
    else
      err (.outside use index ring.start ring.finish) ring := by
  by_cases h : ring.start ≤ index ∧ index ≤ ring.finish <;> simp [requireBound, h]

end

variable [ByteLog σ] [LawfulLog σ]

namespace Holds

variable {contents : RingContents}

theorem row_window (h : ring.Holds contents) {i : Nat} {row : Row}
    (hrow : contents.live[i]? = some row) : ring.window.row (contents.writable + i) = row :=
  h.window.2 i row hrow

theorem ends_row (h : ring.Holds contents) {i : Nat} {row : Row}
    (hrow : contents.rows[i]? = some row) :
    Ends (Ring.row (contents.start + i)) ring
      (fun read after => read = row ∧ after.Holds contents)
      (fun e after => Archive.IsFault σ e ∧ after.Holds contents) := by
  have hlt := (List.getElem?_eq_some_iff.mp hrow).1
  have hlength := contents.length_rows
  have hstart := h.start_eq
  have hwritable := h.writable_eq
  have hfinish := h.finish_eq
  unfold Ring.row
  rw [ends_bind, ends_requireRow, if_pos (by omega), ends_bind, ends_get]
  split
  · next hle =>
    rw [hwritable] at hle
    obtain ⟨j, hindex, hj⟩ := RingContents.exists_live hle hrow
    rw [ends_pure, hindex]
    exact ⟨h.row_window hj, h⟩
  · next hgt =>
    rw [hwritable] at hgt
    obtain ⟨frozen, hk, rfl⟩ := RingContents.exists_frozen (by omega) hrow
    split
    · next row hcached =>
      rw [cached?, Option.map_eq_some_iff] at hcached
      obtain ⟨⟨index, row⟩, hcached, rfl⟩ := hcached
      -- The cache holds the row of a frozen row. With the same index it is this one.
      rw [Option.filter_eq_some_iff] at hcached
      obtain ⟨hcached, hindex⟩ := hcached
      obtain ⟨k, frozen', rfl, hk', rfl⟩ := h.cached _ _ hcached
      have hki : k = i := by simpa using hindex
      rw [hki, hk, Option.some.injEq] at hk'
      rw [ends_pure, hk']
      exact ⟨rfl, h⟩
    · rw [ends_bind, ends_set, ends_bind, ends_onArchive]
      obtain ⟨changes, harchive⟩ := h.archive
      apply (harchive.reads_read hk).imp_ends rfl
      · intro archive hafter
        rw [ends_bind, ends_modify, ends_pure]
        refine ⟨rfl, { h with archive := ⟨changes, hafter ▸ harchive⟩, cached := ?_ }⟩
        intro index row hcache
        rw [Option.some.injEq, Prod.mk.injEq] at hcache
        exact ⟨i, frozen, hcache.1.symm, hk, hcache.2.symm⟩
      · intro e archive he hafter
        refine ⟨he, { h with archive := ⟨changes, hafter ▸ harchive⟩, cached := ?_ }⟩
        exact fun _ _ hcache => nomatch hcache

theorem ends_isSoftWrapped (h : ring.Holds contents) {i : Nat} {row : Row}
    (hrow : contents.rows[i]? = some row) :
    Ends (Ring.isSoftWrapped (contents.start + i)) ring
      (fun softWrapped after => softWrapped = row.softWrapped ∧ after.Holds contents)
      (fun e after => Archive.IsFault σ e ∧ after.Holds contents) := by
  have hlt := (List.getElem?_eq_some_iff.mp hrow).1
  have hlength := contents.length_rows
  have hstart := h.start_eq
  have hwritable := h.writable_eq
  have hfinish := h.finish_eq
  unfold Ring.isSoftWrapped
  rw [ends_bind, ends_requireRow, if_pos (by omega), ends_bind, ends_get]
  split
  · next hle =>
    rw [hwritable] at hle
    obtain ⟨j, hindex, hj⟩ := RingContents.exists_live hle hrow
    rw [ends_pure, hindex, h.row_window hj]
    exact ⟨rfl, h⟩
  · next hgt =>
    rw [hwritable] at hgt
    obtain ⟨frozen, hk, rfl⟩ := RingContents.exists_frozen (by omega) hrow
    obtain ⟨changes, harchive⟩ := h.archive
    rw [ends_bind, ends_onArchive]
    apply (harchive.reads_readEntry hk).imp_ends rfl
    · intro archive hafter
      rw [ends_pure, harchive.softWrapped_eq hk, StyledLine.softWrapped_toRow]
      exact ⟨rfl, h.withArchive hafter⟩
    · intro e archive he hafter
      exact ⟨he, h.withArchive hafter⟩

theorem withLive (h : ring.Holds contents) {window : Window} {live : List Row} {finish : Nat}
    (hwindow : window.Shows contents.writable live) (hfinish : finish = contents.writable + live.length)
    (hflags : ∀ row ∈ live, row.FlagsDefined) :
    { ring with window, finish }.Holds { contents with live } where
  start_eq := h.start_eq
  writable_eq := h.writable_eq
  finish_eq := hfinish
  maxRows_eq := h.maxRows_eq
  archive := h.archive
  window := hwindow
  cached := h.cached
  flagsDefined := hflags

theorem set (h : ring.Holds contents) {j : Nat} (hj : j < contents.live.length) {row : Row}
    (hrow : row.FlagsDefined) :
    { ring with window := ring.window.set (contents.writable + j) row }.Holds
      { contents with live := contents.live.set j row } := by
  apply h.withLive (h.window.setIdx hj row)
  · rw [h.finish_eq, RingContents.finish, List.length_set]
  · intro other hother
    rcases List.mem_or_eq_of_mem_set hother with hmem | rfl
    · exact h.flagsDefined other hmem
    · exact hrow

theorem insertIdx (h : ring.Holds contents) (hroom : contents.live.length < ring.window.capacity)
    {j : Nat} (hj : j ≤ contents.live.length) {row : Row} (hrow : row.FlagsDefined) :
    { ring with
      window := (ring.window.moveUp (contents.writable + j) (contents.live.length - j)).set
        (contents.writable + j) row
      finish := ring.finish + 1 }.Holds
      { contents with live := contents.live.insertIdx j row } := by
  apply h.withLive (h.window.insertIdx hroom hj row)
  · rw [h.finish_eq, RingContents.finish, List.length_insertIdx_of_le_length hj, Nat.add_assoc]
  · intro other hother
    rcases (List.mem_insertIdx hj).mp hother with rfl | hmem
    · exact hrow
    · exact h.flagsDefined other hmem

theorem eraseIdx (h : ring.Holds contents) {j : Nat} (hj : j < contents.live.length) (row : Row) :
    { ring with
      window := (ring.window.set (contents.writable + j) row).moveDown (contents.writable + j)
        (contents.live.length - 1 - j)
      finish := ring.finish - 1 }.Holds
      { contents with live := contents.live.eraseIdx j } := by
  have hset := h.window.setIdx hj row
  have herase := hset.eraseIdx (by rwa [List.length_set])
  rw [List.length_set, List.eraseIdx_set_eq] at herase
  apply h.withLive herase
  · rw [h.finish_eq, RingContents.finish, List.length_eraseIdx_of_lt hj]
    omega
  · exact fun other hother => h.flagsDefined other (List.mem_of_mem_eraseIdx hother)

end Holds

end Ring

namespace RowList

def set (list : RowList) (i : Nat) (row : Row) : RowList :=
  { list with rows := list.rows.set i row }

def insertIdx (list : RowList) (i : Nat) (row : Row) : RowList :=
  { list with rows := list.rows.insertIdx i row }

def eraseIdx (list : RowList) (i : Nat) : RowList :=
  { list with rows := list.rows.eraseIdx i }

def evict (list : RowList) : RowList :=
  if list.maxRows ≤ list.rows.length then list.drop 1 else list

/--
The list with a row before the one with the given index. A row that would take the place of one that
goes becomes the oldest.
-/
def insert (list : RowList) (index : Nat) (row : Row) : RowList :=
  list.evict.insertIdx (index - list.evict.start) row

end RowList

namespace RingContents.Shows

variable {contents : RingContents} {list : RowList} {j : Nat} {shown row : Row}

theorem set (h : contents.Shows list) (hrow : shown.ShownAs row) :
    { contents with live := contents.live.set j shown }.Shows
      (list.set (contents.frozen.length + j) row) := by
  have hrows := forall₂_set h.rows hrow (contents.frozen.length + j)
  rw [RingContents.rows, List.set_append_right _ _ (by rw [List.length_map]; omega),
    List.length_map, Nat.add_sub_cancel_left] at hrows
  refine ⟨h.start_eq, h.maxRows_eq, hrows, ?_⟩
  intro k frozen row' hfrozen hrow'
  have hk : k < contents.frozen.length := (List.getElem?_eq_some_iff.mp hfrozen).1
  rw [RowList.set, List.getElem?_set_ne (by omega)] at hrow'
  exact h.line_eq k frozen row' hfrozen hrow'

theorem insertIdx (h : contents.Shows list) (hrow : shown.ShownAs row) :
    { contents with live := contents.live.insertIdx j shown }.Shows
      (list.insertIdx (contents.frozen.length + j) row) := by
  have hrows := forall₂_insertIdx h.rows hrow ((contents.frozen.map (·.line.toRow)).length + j)
  rw [RingContents.rows, insertIdx_length_add, List.length_map] at hrows
  refine ⟨h.start_eq, h.maxRows_eq, hrows, ?_⟩
  intro k frozen row' hfrozen hrow'
  have hk : k < contents.frozen.length := (List.getElem?_eq_some_iff.mp hfrozen).1
  rw [RowList.insertIdx, List.getElem?_insertIdx_of_lt (by omega)] at hrow'
  exact h.line_eq k frozen row' hfrozen hrow'

theorem eraseIdx (h : contents.Shows list) :
    { contents with live := contents.live.eraseIdx j }.Shows
      (list.eraseIdx (contents.frozen.length + j)) := by
  have hrows := forall₂_eraseIdx h.rows (contents.frozen.length + j)
  rw [RingContents.rows, List.eraseIdx_append_of_length_le (by rw [List.length_map]; omega),
    List.length_map, Nat.add_sub_cancel_left] at hrows
  refine ⟨h.start_eq, h.maxRows_eq, hrows, ?_⟩
  intro k frozen row' hfrozen hrow'
  have hk : k < contents.frozen.length := (List.getElem?_eq_some_iff.mp hfrozen).1
  rw [RowList.eraseIdx, List.getElem?_eraseIdx_of_lt (by omega)] at hrow'
  exact h.line_eq k frozen row' hfrozen hrow'

end RingContents.Shows

namespace Ring.Shows

variable {σ : Type} [ByteLog σ] [LawfulLog σ] {ring : Ring σ} {list : RowList} {i : Nat} {row : Row}
  {room : EStateM RingError (Ring σ) Unit} {Failure : RingError → Prop}

theorem ends_row (h : ring.Shows list) (hrow : list.rows[i]? = some row) :
    Ends (Ring.row (list.start + i)) ring
      (fun shown after => shown.ShownAs row ∧ after.Shows list)
      (fun e after => Archive.IsFault σ e ∧ after.Shows list) := by
  obtain ⟨contents, h, hlist⟩ := h
  obtain ⟨shown, hshown, hrow⟩ := exists_getElem?_of_forall₂ hlist.rows hrow
  rw [← hlist.start_eq]
  apply (h.ends_row hshown).imp
  · rintro _ after ⟨rfl, hafter⟩
    exact ⟨hrow, contents, hafter, hlist⟩
  · rintro e after ⟨he, hafter⟩
    exact ⟨he, contents, hafter, hlist⟩

theorem ends_isSoftWrapped (h : ring.Shows list) (hrow : list.rows[i]? = some row) :
    Ends (Ring.isSoftWrapped (list.start + i)) ring
      (fun softWrapped after => softWrapped = row.softWrapped ∧ after.Shows list)
      (fun e after => Archive.IsFault σ e ∧ after.Shows list) := by
  obtain ⟨contents, h, hlist⟩ := h
  obtain ⟨shown, hshown, hrow⟩ := exists_getElem?_of_forall₂ hlist.rows hrow
  rw [← hlist.start_eq]
  apply (h.ends_isSoftWrapped hshown).imp
  · rintro _ after ⟨rfl, hafter⟩
    exact ⟨hrow.softWrapped_eq, contents, hafter, hlist⟩
  · rintro e after ⟨he, hafter⟩
    exact ⟨he, contents, hafter, hlist⟩

theorem row_window (h : ring.Shows list) (hwritable : ring.writable ≤ list.start + i)
    (hrow : list.rows[i]? = some row) : (ring.window.row (list.start + i)).ShownAs row := by
  obtain ⟨contents, h, hlist⟩ := h
  obtain ⟨shown, hshown, hrow⟩ := exists_getElem?_of_forall₂ hlist.rows hrow
  rw [h.writable_eq, ← hlist.start_eq] at hwritable
  obtain ⟨j, hindex, hj⟩ := RingContents.exists_live hwritable hshown
  rw [← hlist.start_eq, hindex, h.row_window hj]
  exact hrow

theorem set (h : ring.Shows list) (hwritable : ring.writable ≤ list.start + i)
    (hi : i < list.rows.length) (hrow : row.FlagsDefined) :
    { ring with window := ring.window.set (list.start + i) row }.Shows (list.set i row) := by
  obtain ⟨contents, h, hlist⟩ := h
  obtain ⟨shown, hshown, -⟩ :=
    exists_getElem?_of_forall₂ hlist.rows (List.getElem?_eq_getElem hi)
  rw [h.writable_eq, ← hlist.start_eq] at hwritable
  obtain ⟨j, hindex, hj⟩ := RingContents.exists_live hwritable hshown
  have hplace : i = contents.frozen.length + j := by
    rw [RingContents.writable] at hindex
    omega
  refine ⟨_, ?_, hplace ▸ hlist.set (Row.ShownAs.refl row)⟩
  rw [← hlist.start_eq, hindex]
  exact h.set (List.getElem?_eq_some_iff.mp hj).1 hrow

theorem ends_editWith (hroom : MakesRoom room Failure) {α : Type} (h : ring.Shows list)
    (hrow : list.rows[i]? = some row) (f : Row → α × Row)
    (hflags : ∀ shown, shown.ShownAs row → (f shown).2.FlagsDefined) :
    Ends (editWith room (list.start + i) f) ring
      (fun a after => ∃ shown, shown.ShownAs row ∧ a = (f shown).1
        ∧ after.Shows (list.set i (f shown).2))
      (fun e after => Failure e ∧ after.Shows list) := by
  have hlt := (List.getElem?_eq_some_iff.mp hrow).1
  have hstart := h.start_eq
  have hfinish := h.finish_eq
  rw [RowList.finish] at hfinish
  unfold editWith
  rw [ends_bind, ends_requireRow, if_pos (by omega), ends_bind]
  apply (h.ends_ensureWritableWith hroom (Nat.le_add_right _ i)).imp
  · rintro _ ring ⟨h, hwritable⟩
    have hshown := h.row_window hwritable hrow
    rw [ends_bind, ends_get]
    dsimp only
    rw [ends_bind, ends_set, ends_pure]
    exact ⟨_, hshown, rfl, h.set hwritable hlt (hflags _ hshown)⟩
  · exact fun e after herr => herr

theorem ends_assignWith (hroom : MakesRoom room Failure) (h : ring.Shows list)
    (hi : i < list.rows.length) (hrow : row.FlagsDefined) :
    Ends (assignWith room (list.start + i) row) ring
      (fun _ after => after.Shows (list.set i row))
      (fun e after => Failure e ∧ after.Shows list) := by
  apply (h.ends_editWith hroom (List.getElem?_eq_getElem hi) _ fun _ _ => hrow).imp
  · rintro _ after ⟨_, -, -, hafter⟩
    exact hafter
  · exact fun e after herr => herr

theorem ends_eraseWith (hroom : MakesRoom room Failure) (h : ring.Shows list)
    (hrow : list.rows[i]? = some row) :
    Ends (eraseWith room (list.start + i)) ring
      (fun shown after => shown.ShownAs row ∧ after.Shows (list.eraseIdx i))
      (fun e after => Failure e ∧ after.Shows list) := by
  have hlt := (List.getElem?_eq_some_iff.mp hrow).1
  have hstart := h.start_eq
  have hfinish := h.finish_eq
  rw [RowList.finish] at hfinish
  unfold eraseWith
  rw [ends_bind, ends_requireRow, if_pos (by omega), ends_bind]
  apply (h.ends_ensureWritableWith hroom (Nat.le_add_right _ i)).imp
  · rintro _ ring ⟨⟨contents, h, hlist⟩, hwritable⟩
    obtain ⟨shown, hshown, hrow⟩ := exists_getElem?_of_forall₂ hlist.rows hrow
    rw [h.writable_eq, ← hlist.start_eq] at hwritable
    obtain ⟨j, hindex, hj⟩ := RingContents.exists_live hwritable hshown
    have hi : i = contents.frozen.length + j := by
      rw [RingContents.writable] at hindex
      omega
    have hcount : ring.finish - 1 - (contents.writable + j) = contents.live.length - 1 - j := by
      rw [h.finish_eq, RingContents.finish]
      omega
    rw [ends_bind, ends_get, ← hlist.start_eq, hindex, h.row_window hj, hcount]
    dsimp only
    rw [ends_bind, ends_set, ends_pure, hi]
    exact ⟨hrow, _, h.eraseIdx (List.getElem?_eq_some_iff.mp hj).1 _, hlist.eraseIdx⟩
  · exact fun e after herr => herr

end Ring.Shows

end Scrollback
