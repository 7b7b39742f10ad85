import Scrollback.Ring.Basic

/-!
This module contains the ways to read, edit, insert and remove rows.
-/

namespace Scrollback

namespace Ring

variable {σ α : Type} [ByteLog σ]

def row (index : Nat) : EStateM RingError (Ring σ) Row := do
  requireRow index
  let ring ← get
  if ring.writable ≤ index then
    return ring.window.row index
  else
    match ring.cached? index with
    | some row => return row
    | none => do
      set { ring with cache := none }
      let (_, row) ← onArchive (Archive.read index)
      modify fun ring => { ring with cache := some (index, row) }
      return row

def isSoftWrapped (index : Nat) : EStateM RingError (Ring σ) Bool := do
  requireRow index
  let ring ← get
  if ring.writable ≤ index then
    return (ring.window.row index).softWrapped
  else do
    let entry ← onArchive (Archive.readEntry index)
    return entry.softWrapped

def evict : EStateM RingError (Ring σ) Unit := do
  let ring ← get
  if ring.maxRows ≤ ring.size then
    dropBefore (ring.start + 1)

section

variable (room : EStateM RingError (Ring σ) Unit)

def editWith (index : Nat) (f : Row → α × Row) : EStateM RingError (Ring σ) α := do
  requireRow index
  ensureWritableWith room index
  let ring ← get
  let (a, row) := f (ring.window.row index)
  set { ring with window := ring.window.set index row }
  return a

def assignWith (index : Nat) (row : Row) : EStateM RingError (Ring σ) Unit :=
  editWith room index fun _ => ((), row)

/--
Freeze the oldest row of a full window, unless its index is `keep` or above. Otherwise make room for
one more row.
-/
def settleWith (keep : Nat) : EStateM RingError (Ring σ) Unit := do
  let ring ← get
  let capacity := ring.window.capacity
  if ring.visibleRows < capacity ∧ ring.writable + capacity = ring.finish ∧ ring.writable < keep then
    freezeOldest
  else
    room

/--
Insert an empty row before the one with the given index and return its own index.

If the ring is full, the oldest row is dropped first, and a row that would take its place becomes
the oldest one.
-/
def insertWith (index : Nat) : EStateM RingError (Ring σ) Nat := do
  requireBound .insert index
  evict
  let index := max index (← get).start
  ensureWritableWith room index
  room
  modify fun ring =>
    { ring with
      window := (ring.window.moveUp index (ring.finish - index)).set index Row.empty
      finish := ring.finish + 1 }
  settleWith room index
  return index

def appendWith : EStateM RingError (Ring σ) Nat := do
  insertWith room (← get).finish

def eraseWith (index : Nat) : EStateM RingError (Ring σ) Row := do
  requireRow index
  ensureWritableWith room index
  let ring ← get
  let row := ring.window.row index
  set { ring with
    window := (ring.window.set index Row.empty).moveDown index (ring.finish - 1 - index)
    finish := ring.finish - 1 }
  return row

end

def edit (index : Nat) (f : Row → α × Row) : EStateM RingError (Ring σ) α :=
  editWith ensureRoom index f

def assign (index : Nat) (row : Row) : EStateM RingError (Ring σ) Unit :=
  assignWith ensureRoom index row

def insert (index : Nat) : EStateM RingError (Ring σ) Nat :=
  insertWith ensureRoom index

def append : EStateM RingError (Ring σ) Nat :=
  appendWith ensureRoom

def push (row : Row) : EStateM RingError (Ring σ) Unit := do
  let index ← append
  assign index row

def erase (index : Nat) : EStateM RingError (Ring σ) Row :=
  eraseWith ensureRoom index

end Ring

end Scrollback
