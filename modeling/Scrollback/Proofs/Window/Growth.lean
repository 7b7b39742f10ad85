import Mathlib.Data.Set.Operations
import Mathlib.Order.Interval.Set.Defs
import Scrollback.Proofs.Outcome
import Scrollback.Proofs.Window

/-!
This module contains the proof that a window which is enlarged keeps its rows. They move from the slots
of one capacity to those of another, and none of them is left behind.
-/

namespace Scrollback

namespace Window

variable {window other : Window} {start count wanted : Nat} {rows : List Row}
  {hasMemory : Nat → Bool}

theorem moveTo_succ (window other : Window) (start count : Nat) :
    window.moveTo other start (count + 1)
      =
    ((window.moveTo other start count).1.set (start + count) Row.empty,
      (window.moveTo other start count).2.set (start + count)
        ((window.moveTo other start count).1.row (start + count))) := by
  rfl

@[simp]
theorem capacity_moveTo (window other : Window) (start count : Nat) :
    (window.moveTo other start count).2.capacity = other.capacity := by
  induction count with
  | zero => rfl
  | succ count ih => rw [moveTo_succ, capacity_set, ih]

namespace Shows

/--
The rows that did not move yet are still in their slots, and those that did are in the new ones.
-/
theorem moveTo_drop_take (h : window.Shows start rows) (hlength : rows.length ≤ other.capacity)
    (hcount : count ≤ rows.length) :
    (window.moveTo other start count).1.Shows (start + count) (rows.drop count)
      ∧ (window.moveTo other start count).2.Shows start (rows.take count) := by
  induction count with
  | zero => exact ⟨h, nil⟩
  | succ count ih =>
    obtain ⟨hleft, hmoved⟩ := ih (Nat.le_of_succ_le hcount)
    rw [List.drop_eq_getElem_cons hcount, cons_iff] at hleft
    obtain ⟨hroom, hrow, hrest⟩ := hleft
    have hbefore : (rows.take count).length = count := by
      rw [List.length_take]
      omega
    rw [moveTo_succ, hrow, List.take_succ_eq_append_getElem hcount]
    refine ⟨?_, ?_⟩
    · -- The slot that is emptied is none of those of the rows that are left.
      have hset := set nil hrest (by rwa [List.length_nil, Nat.zero_add]) Row.empty
      rw [List.length_nil, Nat.add_zero, List.nil_append, cons_iff] at hset
      exact hset.2.2
    · have hfree : (rows.take count).length + 0 < (window.moveTo other start count).2.capacity := by
        rw [capacity_moveTo, hbefore]
        omega
      have hset := hmoved.set nil hfree rows[count]
      rwa [hbefore] at hset

theorem moveTo (h : window.Shows start rows) (hlength : rows.length ≤ other.capacity) :
    (window.moveTo other start rows.length).2.Shows start rows := by
  have hmoved := (h.moveTo_drop_take hlength (Nat.le_refl _)).2
  rwa [List.take_length] at hmoved

end Shows

def IsRefused (hasMemory : Nat → Bool) (wanted : Nat) (e : RingError) : Prop :=
  (maxCapacity < capacityFor wanted ∧ e = .alloc wanted)
    ∨ (hasMemory (capacityFor wanted) = false ∧ e = .alloc (capacityFor wanted))

theorem ends_grow {ok : Unit → Window → Prop} {err : RingError → Window → Prop} :
    Ends (grow hasMemory start count wanted) window ok err
      ↔
    if wanted ≤ window.capacity then
      ok () window
    else if maxCapacity < capacityFor wanted then
      err (.alloc wanted) window
    else if hasMemory (capacityFor wanted) then
      ok () (window.moveTo (ofCapacity _ (isPowerOfTwo_capacityFor wanted)) start count).2
    else
      err (.alloc (capacityFor wanted)) window := by
  unfold grow
  rw [ends_bind, ends_get]
  dsimp only
  split
  · rfl
  · split
    · rfl
    · split
      · rfl
      · rfl

theorem ends_grow_capacity :
    Ends (grow hasMemory start count wanted) window
      (fun _ after => wanted ≤ after.capacity ∧ window.capacity ≤ after.capacity)
      (fun e after => window.capacity < wanted ∧ IsRefused hasMemory wanted e ∧ after = window) := by
  have hle := le_capacityFor wanted
  rw [ends_grow]
  split
  · next hfits => exact ⟨hfits, Nat.le_refl _⟩
  · next hsmall =>
    rw [Nat.not_le] at hsmall
    split
    · next hmax => exact ⟨hsmall, Or.inl ⟨hmax, rfl⟩, rfl⟩
    · split
      · rw [capacity_moveTo]
        exact ⟨hle, Nat.le_trans (Nat.le_of_lt hsmall) hle⟩
      · next hmemory => exact ⟨hsmall, Or.inr ⟨Bool.eq_false_iff.mpr hmemory, rfl⟩, rfl⟩

theorem Shows.ends_grow_shows (h : window.Shows start rows) (hasMemory : Nat → Bool)
    (wanted : Nat) :
    Ends (grow hasMemory start rows.length wanted) window (fun _ after => after.Shows start rows)
      (fun _ _ => True) := by
  rw [ends_grow]
  split
  · exact h
  · next hsmall =>
    split
    · trivial
    · split
      · apply h.moveTo
        have hlength := h.1
        have hle := le_capacityFor wanted
        change rows.length ≤ capacityFor wanted
        omega
      · trivial

theorem capacityFor_lt (count : Nat) : capacityFor count < max 2 (2 * count) := by
  unfold capacityFor
  split
  · omega
  · have := Nat.log2_self_le (n := count - 1) (by omega)
    rw [Nat.one_shiftLeft, Nat.pow_succ]
    omega

theorem capacityFor_le {rows exponent : Nat} (h : rows ≤ 2 ^ exponent) :
    capacityFor rows ≤ 2 ^ exponent := by
  unfold capacityFor
  split
  · exact Nat.one_le_two_pow
  · have hlog : (rows - 1).log2 < exponent := (Nat.log2_lt (by omega)).mpr (by omega)
    rw [Nat.one_shiftLeft]
    exact Nat.pow_le_pow_right Nat.two_pos hlog

theorem fits_initialCapacity {rows : Nat} (h : rows ≤ 2 ^ 57) : fits (initialCapacity rows) = true := by
  have hle : initialCapacity rows ≤ 2 ^ 57 := Nat.le_trans (Nat.min_le_left _ _) (capacityFor_le h)
  rw [fits, decide_eq_true_iff]
  simp only [maxArraySize, slotSize]
  omega

/--
If all windows have memory that do not exceed the number of bytes that one may take up, then only those
are refused that would have to hold at least `2 ^ 58` rows.
-/
theorem IsRefused.exists_size {e : RingError} (h : IsRefused fits wanted e) :
    ∃ size, e = .alloc size ∧ 2 ^ 58 ≤ size := by
  rcases h with ⟨hmax, rfl⟩ | ⟨hsize, rfl⟩
  · have hlt := capacityFor_lt wanted
    have : maxCapacity = 2 ^ 63 := rfl
    exact ⟨wanted, rfl, by omega⟩
  · rw [fits, decide_eq_false_iff_not] at hsize
    simp only [maxArraySize, slotSize] at hsize
    exact ⟨_, rfl, by omega⟩

theorem injOn_slot (h : count ≤ window.capacity) :
    (Set.Ico start (start + count)).InjOn (· % window.capacity) := by
  intro i hi j hj heq
  by_contra hne
  exact mod_ne_mod start ⟨hi.1, Nat.lt_of_lt_of_le hi.2 (Nat.add_le_add_left h start)⟩
    ⟨hj.1, Nat.lt_of_lt_of_le hj.2 (Nat.add_le_add_left h start)⟩ hne heq

/--
Whichever capacities there is memory for, a window either gets room for the wanted number of rows and
still has its rows at the `count` indices from `start` on, or it is refused a larger capacity and stays
as it is. Each of those indices has a slot of its own afterwards.
-/
theorem grow_keeps_live_rows (hasMemory : Nat → Bool) (window : Window) (start count wanted : Nat)
    (h : count ≤ window.capacity) :
    Ends (grow hasMemory start count wanted) window
      (fun _ after =>
        after.capacity.isPowerOfTwo ∧ wanted ≤ after.capacity ∧ window.capacity ≤ after.capacity
          ∧ (∀ index ∈ Set.Ico start (start + count), after.row index = window.row index)
          ∧ (Set.Ico start (start + count)).InjOn (· % after.capacity))
      (fun e after =>
        window.capacity < wanted ∧ IsRefused hasMemory wanted e ∧ after = window
          ∧ (Set.Ico start (start + count)).InjOn (· % after.capacity)) := by
  have hshows : window.Shows start ((List.range' start count).map window.row) := Shows.ofWindow h
  have hgrow := hshows.ends_grow_shows hasMemory wanted
  rw [List.length_map, List.length_range'] at hgrow
  apply (ends_grow_capacity.and hgrow).imp
  · rintro _ after ⟨⟨hwanted, hcapacity⟩, hafter⟩
    refine ⟨after.isPowerOfTwo_capacity, hwanted, hcapacity, ?_,
      injOn_slot (Nat.le_trans h hcapacity)⟩
    rintro index ⟨hstart, hlt⟩
    obtain ⟨i, rfl⟩ := Nat.exists_eq_add_of_le hstart
    apply hafter.2 i
    rw [List.getElem?_map, List.getElem?_range' (by omega), Nat.one_mul, Option.map_some]
  · rintro e after ⟨⟨hsmall, hrefused, rfl⟩, -⟩
    exact ⟨hsmall, hrefused, rfl, injOn_slot h⟩

/--
Four rows in a window of four slots, the first of them in the third slot. With room for a fifth one
they are in the last two slots of eight and in the first two.
-/
theorem grow_keeps_live_rows_wrapped :
    let row (char : Char) : Row := { cells := [Cell.lead char {}] }
    let window := ((((ofRows 4).set 6 (row 'a')).set 7 (row 'b')).set 8 (row 'c')).set 9 (row 'd')
    4 ≤ window.capacity
      ∧ (∃ after, grow fits 6 4 5 window = .ok () after ∧ after.capacity = 8
        ∧ after.row 6 = row 'a' ∧ after.row 7 = row 'b' ∧ after.row 8 = row 'c'
        ∧ after.row 9 = row 'd')
      ∧ grow (fun _ => false) 6 4 5 window = .error (.alloc 8) window := by
  intro row window
  have hlength : 4 ≤ window.capacity := by decide
  have hgrown : grow fits 6 4 5 window = .ok () (final (grow fits 6 4 5) window) :=
    eq_ok_of_run' (by decide +kernel)
  have hrefused : grow (fun _ => false) 6 4 5 window
      = .error (.alloc 8) (final (grow (fun _ => false) 6 4 5) window) :=
    eq_error_of_outcome rfl
  obtain ⟨-, -, -, hrows, -⟩ := (grow_keeps_live_rows fits window 6 4 5 hlength).of_ok hgrown
  obtain ⟨-, -, hsame, -⟩ :=
    (grow_keeps_live_rows (fun _ => false) window 6 4 5 hlength).of_error hrefused
  rw [hsame] at hrefused
  refine ⟨hlength, ⟨_, hgrown, by decide +kernel, ?_, ?_, ?_, ?_⟩, hrefused⟩
  · exact (hrows 6 ⟨by decide, by decide⟩).trans (by decide +kernel)
  · exact (hrows 7 ⟨by decide, by decide⟩).trans (by decide +kernel)
  · exact (hrows 8 ⟨by decide, by decide⟩).trans (by decide +kernel)
  · exact (hrows 9 ⟨by decide, by decide⟩).trans (by decide +kernel)

end Window

end Scrollback
