import Scrollback.Archive.Freeze
import Scrollback.Archive.Thaw
import Scrollback.Position
import Scrollback.Window

/-!
This module contains the ring of rows. Its newest rows are in a window, where they can be edited, and
the older ones are frozen in an archive. The index of a row never changes except when rows before it
are inserted or removed, and the rows are limited in number: the oldest ones go first.

The rows from `start` to before `writable` are frozen, and those from `writable` to before `finish`
are in the window.
-/

namespace Scrollback

structure Ring (σ : Type) where
  start : Nat := 0
  /--
  The index of the oldest row in the window.
  -/
  writable : Nat := 0
  finish : Nat := 0
  maxRows : Nat
  window : Window
  archive : Archive σ
  cache : Option (Nat × Row) := none
  /--
  The number of rows that are on a screen. The window keeps more than that.
  -/
  visibleRows : Nat := 0

namespace Ring

variable {σ α : Type}

def size (ring : Ring σ) : Nat :=
  ring.finish - ring.start

def isEmpty (ring : Ring σ) : Bool :=
  ring.start = ring.finish

def contains (ring : Ring σ) (index : Nat) : Bool :=
  ring.start ≤ index && index < ring.finish

def cached? (ring : Ring σ) (index : Nat) : Option Row :=
  (ring.cache.filter (·.1 = index)).map (·.2)

def dropStaleCache (ring : Ring σ) : Ring σ :=
  { ring with
    cache := ring.cache.filter fun (index, _) => ring.start ≤ index && index < ring.writable }

def onArchive (action : EStateM RingError (Archive σ) α) : EStateM RingError (Ring σ) α
  | ⟨start, writable, finish, maxRows, window, archive, cache, visibleRows⟩ =>
    match action archive with
    | .ok a archive =>
      .ok a ⟨start, writable, finish, maxRows, window, archive, cache, visibleRows⟩
    | .error e archive =>
      .error e ⟨start, writable, finish, maxRows, window, archive, cache, visibleRows⟩

def onWindow (action : EStateM RingError Window α) : EStateM RingError (Ring σ) α
  | ⟨start, writable, finish, maxRows, window, archive, cache, visibleRows⟩ =>
    match action window with
    | .ok a window =>
      .ok a ⟨start, writable, finish, maxRows, window, archive, cache, visibleRows⟩
    | .error e window =>
      .error e ⟨start, writable, finish, maxRows, window, archive, cache, visibleRows⟩

def requireRow (index : Nat) : EStateM RingError (Ring σ) Unit := do
  let ring ← get
  unless ring.contains index do
    throw (.outside .row index ring.start ring.finish)

def requireBound (use : IndexUse) (index : Nat) : EStateM RingError (Ring σ) Unit := do
  let ring ← get
  unless ring.start ≤ index && index ≤ ring.finish do
    throw (.outside use index ring.start ring.finish)

/--
Make sure that the window is larger than what is on screen and that it has room for one more row.
-/
def ensureRoom : EStateM RingError (Ring σ) Unit := do
  let ring ← get
  let capacity := ring.window.capacity
  unless ring.visibleRows < capacity ∧ ring.finish < ring.writable + capacity do
    let count := ring.finish - ring.writable
    onWindow
      (Window.grow Window.fits ring.writable count (max (add64 ring.visibleRows 1) (count + 1)))

variable [ByteLog σ]

def ofLogs (maxRows windowRows : Nat) (rows text attributes : σ) : Ring σ where
  maxRows := max maxRows 1
  window := Window.ofRows windowRows
  archive := Archive.ofLogs rows text attributes

/--
The ring over the given logs, unless its window would be larger than an array can be.
-/
def create (maxRows windowRows : Nat) (rows text attributes : σ) : Except RingError (Ring σ) :=
  if Window.fits (Window.initialCapacity windowRows) then
    .ok (ofLogs maxRows windowRows rows text attributes)
  else
    .error .capacity

def empty [Inhabited σ] (maxRows windowRows : Nat) : Except RingError (Ring σ) :=
  create maxRows windowRows default default default

def freezeOldest : EStateM RingError (Ring σ) Unit := do
  modify fun ring =>
    if ring.writable = ring.start then
      { ring with archive := ring.archive.reset ring.writable }
    else
      ring
  let ring ← get
  onArchive (Archive.freeze (ring.window.row ring.writable))
  modify fun ring => { ring with writable := ring.writable + 1 }

def freezeRows : Nat → EStateM RingError (Ring σ) Unit
  | 0 => pure ()
  | count + 1 => do
    freezeOldest
    freezeRows count

section

-- The action that makes room in the window. It depends on how much memory there is.
variable (room : EStateM RingError (Ring σ) Unit)

def thawNewestWith : EStateM RingError (Ring σ) Unit := do
  room
  let index := (← get).writable - 1
  let row ← onArchive (Archive.thaw index)
  modify fun ring =>
    { ring with window := ring.window.set index row, writable := index }.dropStaleCache

def thawRowsWith : Nat → EStateM RingError (Ring σ) Unit
  | 0 => pure ()
  | count + 1 => do
    thawNewestWith room
    thawRowsWith count

def ensureWritableWith (index : Nat) : EStateM RingError (Ring σ) Unit := do
  let ring ← get
  thawRowsWith room (ring.writable - index)

end

def dropBefore (index : Nat) : EStateM RingError (Ring σ) Unit := do
  if index < (← get).writable then
    let entry ← onArchive (Archive.readEntry index)
    modify fun ring => { ring with archive := ring.archive.advanceTails index entry }
  else
    modify fun ring => { ring with writable := index, archive := ring.archive.reset index }
  modify fun ring => { ring with start := index }.dropStaleCache

end Ring

end Scrollback
