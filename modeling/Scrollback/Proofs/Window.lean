import Mathlib.Algebra.Order.Ring.Nat
import Mathlib.Data.List.Induction
import Scrollback.Proofs.Pieces
import Scrollback.Window

/-!
This module contains what a window shows from an index on, and how its operations change that.
-/

namespace Scrollback

namespace Window

def Shows (window : Window) (start : Nat) (rows : List Row) : Prop :=
  rows.length ≤ window.capacity ∧ ∀ i row, rows[i]? = some row → window.row (start + i) = row

variable {window : Window} {start : Nat} {rows : List Row}

theorem mod_ne_mod (start : Nat) {capacity i j : Nat} (hi : start ≤ i ∧ i < start + capacity)
    (hj : start ≤ j ∧ j < start + capacity) (hne : i ≠ j) : i % capacity ≠ j % capacity := by
  intro heq
  -- Two indices in the same slot are apart by at least the capacity.
  rcases Nat.lt_or_gt_of_ne hne with hlt | hlt
  · have := Nat.sub_mod_eq_zero_of_mod_eq heq.symm
    rw [Nat.mod_eq_of_lt (by omega)] at this
    omega
  · have := Nat.sub_mod_eq_zero_of_mod_eq heq
    rw [Nat.mod_eq_of_lt (by omega)] at this
    omega

@[simp]
theorem capacity_set (index : Nat) (row : Row) : (window.set index row).capacity = window.capacity :=
  rfl

@[simp]
theorem capacity_swap (i j : Nat) : (window.swap i j).capacity = window.capacity :=
  rfl

@[simp]
theorem row_set_self (index : Nat) (row : Row) : (window.set index row).row index = row :=
  Vector.getElem_set_self _

theorem row_set_of_ne {index place : Nat} (h : index % window.capacity ≠ place % window.capacity)
    (row : Row) : (window.set index row).row place = window.row place := by
  exact Vector.getElem_set_ne (window.mod_lt index) (window.mod_lt place) h

@[simp]
theorem row_swap_left (i j : Nat) : (window.swap i j).row i = window.row j :=
  Vector.getElem_swap_left _ _

@[simp]
theorem row_swap_right (i j : Nat) : (window.swap i j).row j = window.row i :=
  Vector.getElem_swap_right _ _

theorem row_swap_of_ne {i j place : Nat} (hi : place % window.capacity ≠ i % window.capacity)
    (hj : place % window.capacity ≠ j % window.capacity) :
    (window.swap i j).row place = window.row place :=
  @Vector.getElem_swap_of_ne Row window.capacity (place % window.capacity) window.slots
    (i % window.capacity) (j % window.capacity) (window.mod_lt i) (window.mod_lt j)
    (window.mod_lt place) hi hj

theorem swap_comm (i j : Nat) : window.swap i j = window.swap j i := by
  simp only [Window.swap, Window.mk.injEq, heq_eq_eq, true_and]
  exact Vector.swap_comm _ _

namespace Shows

theorem nil : window.Shows start [] := by
  simp [Shows]

theorem congr {window' : Window} (h : window.Shows start rows)
    (hcapacity : window'.capacity = window.capacity)
    (hrow : ∀ place, start ≤ place → place < start + rows.length →
      window'.row place = window.row place) : window'.Shows start rows := by
  refine ⟨hcapacity ▸ h.1, ?_⟩
  intro i row hi
  have := (List.getElem?_eq_some_iff.mp hi).1
  rw [hrow _ (by omega) (by omega)]
  exact h.2 i row hi

theorem map_row (h : window.Shows start rows) :
    (List.range' start rows.length).map window.row = rows := by
  apply List.ext_getElem
  · simp
  · intro i _ hi
    rw [List.getElem_map, List.getElem_range', Nat.one_mul]
    exact h.2 i _ (List.getElem?_eq_getElem hi)

theorem ofWindow {count : Nat} (h : count ≤ window.capacity) :
    window.Shows start ((List.range' start count).map window.row) := by
  constructor
  · simpa using h
  · intro i row hrow
    rw [List.getElem?_map, Option.map_eq_some_iff] at hrow
    obtain ⟨index, hindex, rfl⟩ := hrow
    obtain ⟨hi, rfl⟩ := List.getElem?_eq_some_iff.mp hindex
    rw [List.getElem_range', Nat.one_mul]

theorem cons_iff {row : Row} :
    window.Shows start (row :: rows)
      ↔
    rows.length < window.capacity ∧ window.row start = row ∧ window.Shows (start + 1) rows := by
  constructor
  · intro h
    have hlength := h.1
    rw [List.length_cons] at hlength
    refine ⟨hlength, h.2 0 row rfl, Nat.le_of_lt hlength, ?_⟩
    intro i other hother
    rw [Nat.add_assoc, Nat.add_comm 1]
    exact h.2 (i + 1) other hother
  · rintro ⟨hlength, hrow, h⟩
    refine ⟨hlength, ?_⟩
    intro i other hother
    cases i with
    | zero =>
      rw [List.getElem?_cons_zero, Option.some.injEq] at hother
      rw [← hother]
      exact hrow
    | succ i =>
      rw [Nat.add_comm i, ← Nat.add_assoc]
      exact h.2 i other hother

theorem append_iff {rows' : List Row} :
    window.Shows start (rows ++ rows')
      ↔
    rows.length + rows'.length ≤ window.capacity ∧ window.Shows start rows
      ∧ window.Shows (start + rows.length) rows' := by
  induction rows generalizing start with
  | nil =>
    simp only [List.nil_append, List.length_nil, Nat.zero_add, Nat.add_zero, nil, true_and]
    exact ⟨fun h => ⟨h.1, h⟩, And.right⟩
  | cons row rows ih =>
    simp only [List.cons_append, cons_iff, ih, List.length_append, List.length_cons]
    rw [Nat.add_assoc, Nat.add_comm 1]
    constructor
    · rintro ⟨hlength, hrow, -, h, h'⟩
      exact ⟨by omega, ⟨by omega, hrow, h⟩, h'⟩
    · rintro ⟨hlength, ⟨-, hrow, h⟩, h'⟩
      exact ⟨by omega, hrow, by omega, h, h'⟩

theorem set {before after : List Row} (hbefore : window.Shows start before)
    (hafter : window.Shows (start + before.length + 1) after)
    (hlength : before.length + after.length < window.capacity) (row : Row) :
    (window.set (start + before.length) row).Shows start (before ++ row :: after) := by
  rw [append_iff, cons_iff]
  refine ⟨hlength, ?_, ?_, row_set_self _ _, ?_⟩
  · apply hbefore.congr (capacity_set _ _)
    intro place hle hlt
    exact row_set_of_ne (mod_ne_mod start (by omega) (by omega) (by omega)) row
  · rw [capacity_set]
    omega
  · apply hafter.congr (capacity_set _ _)
    intro place hle hlt
    exact row_set_of_ne (mod_ne_mod start (by omega) (by omega) (by omega)) row

theorem take (h : window.Shows start rows) (count : Nat) : window.Shows start (rows.take count) := by
  rw [← List.take_append_drop count rows, append_iff] at h
  exact h.2.1

theorem drop (h : window.Shows start rows) {count : Nat} (hcount : count ≤ rows.length) :
    window.Shows (start + count) (rows.drop count) := by
  rw [← List.take_append_drop count rows, append_iff, List.length_take_of_le hcount] at h
  exact h.2.2

theorem setIdx (h : window.Shows start rows) {i : Nat} (hi : i < rows.length) (row : Row) :
    (window.set (start + i) row).Shows start (rows.set i row) := by
  have hlength := h.1
  have hbefore : (rows.take i).length = i := List.length_take_of_le (Nat.le_of_lt hi)
  have hafter : window.Shows (start + i + 1) (rows.drop (i + 1)) := h.drop hi
  have hset := (h.take i).set (hbefore.symm ▸ hafter) (by rw [hbefore, List.length_drop]; omega) row
  rw [hbefore] at hset
  rw [List.set_eq_take_append_cons_drop, if_pos hi]
  exact hset

theorem swap (before after : List Row) (row row' : Row)
    (h : window.Shows start (before ++ row :: row' :: after)) :
    (window.swap (start + before.length) (start + before.length + 1)).Shows start
      (before ++ row' :: row :: after) := by
  simp only [append_iff, cons_iff, List.length_cons, capacity_swap, row_swap_left,
    row_swap_right] at *
  obtain ⟨hlength, hbefore, hcapacity, hrow, hcapacity', hrow', hafter⟩ := h
  refine ⟨hlength, ?_, hcapacity, hrow', hcapacity', hrow, ?_⟩
  · apply hbefore.congr (capacity_swap _ _)
    intro place hle hlt
    apply row_swap_of_ne
    all_goals exact mod_ne_mod start (by omega) (by omega) (by omega)
  · apply hafter.congr (capacity_swap _ _)
    intro place hle hlt
    apply row_swap_of_ne
    all_goals exact mod_ne_mod start (by omega) (by omega) (by omega)

theorem moveUp (before rows after : List Row) (row : Row)
    (h : window.Shows start (before ++ rows ++ row :: after)) :
    (window.moveUp (start + before.length) rows.length).Shows start
      (before ++ row :: rows ++ after) := by
  -- The row that moves is swapped with its neighbours from the last one on.
  induction rows using List.reverseRecOn generalizing window after with
  | nil => simpa [Window.moveUp] using h
  | append_singleton rows last ih =>
    rw [List.length_append, List.length_singleton, Window.moveUp, swap_comm]
    have hswap := swap (before ++ rows) after last row (by simpa using h)
    rw [List.length_append, ← Nat.add_assoc] at hswap
    simpa using ih (last :: after) hswap

theorem moveDown (before rows after : List Row) (row : Row)
    (h : window.Shows start (before ++ row :: rows ++ after)) :
    (window.moveDown (start + before.length) rows.length).Shows start
      (before ++ rows ++ row :: after) := by
  induction rows generalizing window before with
  | nil => simpa [Window.moveDown] using h
  | cons first rows ih =>
    rw [List.length_cons, Window.moveDown]
    have hswap := swap before (rows ++ after) row first (by simpa using h)
    have := ih (before ++ [first]) (by simpa using hswap)
    simpa [Nat.add_assoc] using this

theorem insertIdx (h : window.Shows start rows) (hlength : rows.length < window.capacity) {i : Nat}
    (hi : i ≤ rows.length) (row : Row) :
    ((window.moveUp (start + i) (rows.length - i)).set (start + i) row).Shows start
      (rows.insertIdx i row) := by
  have hbefore : (rows.take i).length = i := List.length_take_of_le hi
  -- The slot after the last row holds a row, whichever it is.
  obtain ⟨next, hnext⟩ : ∃ next, window.Shows start (rows ++ [next]) := by
    refine ⟨window.row (start + rows.length), ?_⟩
    rw [append_iff, cons_iff]
    exact ⟨hlength, h, by rw [List.length_nil]; omega, rfl, nil⟩
  rw [← List.take_append_drop i rows] at hnext
  have hmove := moveUp (rows.take i) (rows.drop i) [] _ hnext
  rw [hbefore, List.length_drop, List.append_nil] at hmove
  have hlt : i < (rows.take i ++ next :: rows.drop i).length := by
    rw [List.length_append, List.length_cons, hbefore]
    omega
  have hset := hmove.setIdx hlt row
  rwa [List.set_append_right _ _ (Nat.le_of_eq hbefore), hbefore, Nat.sub_self, List.set_cons_zero,
    ← insertIdx_eq_take_append hi] at hset

theorem eraseIdx (h : window.Shows start rows) {i : Nat} (hi : i < rows.length) :
    (window.moveDown (start + i) (rows.length - 1 - i)).Shows start (rows.eraseIdx i) := by
  have hbefore : (rows.take i).length = i := List.length_take_of_le (Nat.le_of_lt hi)
  have hsplit : rows = rows.take i ++ rows[i] :: rows.drop (i + 1) ++ [] := by
    rw [← List.drop_eq_getElem_cons hi, List.take_append_drop, List.append_nil]
  rw [hsplit] at h
  have hmove := moveDown (rows.take i) (rows.drop (i + 1)) [] rows[i] h
  rw [hbefore, List.length_drop, show rows.length - (i + 1) = rows.length - 1 - i by omega] at hmove
  rw [List.eraseIdx_eq_take_drop_succ]
  exact (append_iff.mp hmove).2.1

end Shows

end Window

end Scrollback
