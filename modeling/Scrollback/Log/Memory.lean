import Scrollback.Log.Basic

/-!
This module contains the byte log that is kept in memory.
-/

namespace Scrollback

/--
A byte log in a growing buffer.

Bytes that were released stay in the buffer until they make up half of it, so that releasing costs
constant time per byte on average.
-/
structure MemoryLog where
  buffer : ByteArray
  base : Nat
  tail : Nat
  base_le_tail : base ≤ tail
  tail_le_head : tail ≤ base + buffer.size

namespace MemoryLog

def ofOffset (offset : Nat) : MemoryLog where
  buffer := .empty
  base := offset
  tail := offset
  base_le_tail := Nat.le_refl offset
  tail_le_head := ByteLog.le_add_size_empty offset

instance : Inhabited MemoryLog := ⟨ofOffset 0⟩

def head (log : MemoryLog) : Nat :=
  log.base + log.buffer.size

def retained (log : MemoryLog) : ByteArray :=
  log.buffer.extract (log.tail - log.base) log.buffer.size

def append (log : MemoryLog) (bytes : ByteArray) : MemoryLog where
  buffer := log.buffer ++ bytes
  base := log.base
  tail := log.tail
  base_le_tail := log.base_le_tail
  tail_le_head := by
    have := log.tail_le_head
    rw [ByteArray.size_append]
    omega

def read (log : MemoryLog) (offset size : Nat) : Except LogError ByteArray :=
  if log.tail ≤ offset ∧ offset + size ≤ log.head then
    .ok (log.buffer.extract (offset - log.base) (offset - log.base + size))
  else
    .error (.outOfRange offset size log.tail log.head)

def truncate (log : MemoryLog) (offset : Nat) : MemoryLog where
  buffer := log.buffer.extract 0 (ByteLog.clamp log.tail log.head offset - log.base)
  base := log.base
  tail := log.tail
  base_le_tail := log.base_le_tail
  tail_le_head := by
    have := log.base_le_tail
    have := log.tail_le_head
    have := ByteLog.le_clamp log.tail log.head offset
    rw [ByteArray.size_extract]
    omega

def advanceTail (log : MemoryLog) (offset : Nat) : MemoryLog :=
  let tail := ByteLog.clamp log.tail log.head offset
  let dead := tail - log.base
  if 0 < dead ∧ log.buffer.size ≤ dead * 2 then
    { buffer := log.buffer.extract dead log.buffer.size
      base := tail
      tail
      base_le_tail := Nat.le_refl _
      tail_le_head := Nat.le_add_right _ _ }
  else
    { log with
      tail
      base_le_tail := Nat.le_trans log.base_le_tail (ByteLog.le_clamp ..)
      tail_le_head := ByteLog.clamp_le log.tail_le_head _ }

def overwrite (log : MemoryLog) (offset : Nat) (bytes : ByteArray) : MemoryLog :=
  let first := offset - log.base
  let after := log.buffer.extract (first + bytes.size) log.buffer.size
  let buffer := (log.buffer.extract 0 first ++ bytes ++ after).extract 0 log.buffer.size
  if h : buffer.size = log.buffer.size then
    { log with buffer, tail_le_head := h ▸ log.tail_le_head }
  else
    log

instance : ByteLog MemoryLog where
  tail := MemoryLog.tail
  head := MemoryLog.head
  append bytes := fun log => .ok log.head (log.append bytes)
  read offset size := fun log =>
    match log.read offset size with
    | .ok bytes => .ok bytes log
    | .error e => .error e log
  reset _ offset := ofOffset offset
  truncate := MemoryLog.truncate
  advanceTail := MemoryLog.advanceTail
  fresh := fun log => .ok (ofOffset 0) log

end MemoryLog

end Scrollback
