import Scrollback.Error
import Scrollback.Row.Basic

/-!
This module contains the window, the array that holds the rows that can be edited. A row is found at
its index modulo the capacity, so that rows come and go at both ends without moving the others.
-/

namespace Scrollback

structure Window where
  capacity : Nat
  slots : Vector Row capacity
  isPowerOfTwo_capacity : capacity.isPowerOfTwo

namespace Window

def capacityFor (rows : Nat) : Nat :=
  if rows ≤ 1 then 1 else 1 <<< ((rows - 1).log2 + 1)

theorem isPowerOfTwo_shiftLeft (exponent : Nat) : (1 <<< exponent).isPowerOfTwo :=
  ⟨exponent, Nat.one_shiftLeft exponent⟩

theorem isPowerOfTwo_capacityFor (rows : Nat) : (capacityFor rows).isPowerOfTwo := by
  unfold capacityFor
  split
  · exact Nat.isPowerOfTwo_one
  · exact isPowerOfTwo_shiftLeft _

theorem le_capacityFor (rows : Nat) : rows ≤ capacityFor rows := by
  unfold capacityFor
  split
  · assumption
  · have := Nat.lt_log2_self (n := rows - 1)
    rw [Nat.one_shiftLeft]
    omega

def maxCapacity : Nat := 1 <<< 63

/--
The number of bytes that a row takes up in a window.
-/
def slotSize : Nat := 32

def fits (capacity : Nat) : Bool :=
  capacity * slotSize ≤ maxArraySize

def ofCapacity (capacity : Nat) (h : capacity.isPowerOfTwo) : Window where
  capacity := capacity
  slots := Vector.replicate _ Row.empty
  isPowerOfTwo_capacity := h

theorem isPowerOfTwo_min {m n : Nat} (hm : m.isPowerOfTwo) (hn : n.isPowerOfTwo) :
    (min m n).isPowerOfTwo := by
  rcases Nat.le_total m n with h | h
  · rwa [Nat.min_eq_left h]
  · rwa [Nat.min_eq_right h]

def initialCapacity (rows : Nat) : Nat :=
  min (capacityFor rows) maxCapacity

/--
The empty window with room for `rows` rows, whether it fits or not.
-/
def ofRows (rows : Nat) : Window :=
  ofCapacity (initialCapacity rows)
    (isPowerOfTwo_min (isPowerOfTwo_capacityFor rows) (isPowerOfTwo_shiftLeft 63))

theorem mod_lt (window : Window) (index : Nat) : index % window.capacity < window.capacity :=
  Nat.mod_lt _ (Nat.pos_of_isPowerOfTwo window.isPowerOfTwo_capacity)

def row (window : Window) (index : Nat) : Row :=
  window.slots.get ⟨index % window.capacity, window.mod_lt index⟩

def set (window : Window) (index : Nat) (row : Row) : Window :=
  { window with slots := window.slots.set (index % window.capacity) row (window.mod_lt index) }

def swap (window : Window) (i j : Nat) : Window :=
  { window with
    slots := window.slots.swap (i % window.capacity) (j % window.capacity)
      (window.mod_lt i) (window.mod_lt j) }

/--
Move the rows at the `count` indices from `index` on up by one. The row after them comes to `index`.
-/
def moveUp (window : Window) (index : Nat) : (count : Nat) → Window
  | 0 => window
  | count + 1 => (window.swap (index + count + 1) (index + count)).moveUp index count

/--
Move the rows at the `count` indices after `index` down by one. The row at `index` comes after them.
-/
def moveDown (window : Window) (index : Nat) : (count : Nat) → Window
  | 0 => window
  | count + 1 => (window.swap index (index + 1)).moveDown (index + 1) count

def moveTo (window other : Window) (start : Nat) : (count : Nat) → Window × Window
  | 0 => (window, other)
  | count + 1 =>
    let (window, other) := window.moveTo other start count
    let row := window.row (start + count)
    (window.set (start + count) Row.empty, other.set (start + count) row)

/--
Make room for the given number of rows, and keep the rows at the `count` indices from `start` on.
`hasMemory` says for which capacities there is memory.
-/
def grow (hasMemory : Nat → Bool) (start count rows : Nat) : EStateM RingError Window Unit := do
  let oldCapacity := (← get).capacity
  let capacity := capacityFor rows
  if rows ≤ oldCapacity then
    return
  else if maxCapacity < capacity then
    throw (.alloc rows)
  else if hasMemory capacity then
    modify fun window =>
      (window.moveTo (ofCapacity capacity (isPowerOfTwo_capacityFor rows)) start count).2
  else
    throw (.alloc capacity)

end Window

end Scrollback
