import Scrollback.Log.Basic

/-!
This module contains the byte log that is kept in a file. The file is seen as the bytes in it, which
can be read and written anywhere and cut off at the end.
-/

namespace Scrollback

/--
A byte log in a file.

Bytes that were released stay in the file until they are as many as the others. Bytes that were
dropped at the head stay until they are written over.
-/
structure FileLog where
  file : ByteArray
  base : Nat
  tail : Nat
  head : Nat
  base_le_tail : base ≤ tail
  tail_le_head : tail ≤ head
  head_le_end : head ≤ base + file.size

namespace FileLog

def ofOffset (offset : Nat) : FileLog where
  file := .empty
  base := offset
  tail := offset
  head := offset
  base_le_tail := Nat.le_refl offset
  tail_le_head := Nat.le_refl offset
  head_le_end := ByteLog.le_add_size_empty offset

instance : Inhabited FileLog := ⟨ofOffset 0⟩

def write (file : ByteArray) (position : Nat) (bytes : ByteArray) : ByteArray :=
  bytes.copySlice 0 file position bytes.size

theorem size_write {file : ByteArray} {position : Nat} (h : position ≤ file.size)
    (bytes : ByteArray) :
    (write file position bytes).size = max file.size (position + bytes.size) := by
  simp only [write, ByteArray.copySlice_eq_append, ByteArray.size_append, ByteArray.size_extract,
    ByteArray.size_data]
  omega

def chunkSize : Nat := 4096

def moveToStart (file : ByteArray) (dead live done : Nat) : ByteArray :=
  if done < live then
    let size := min (live - done) chunkSize
    let chunk := file.extract (dead + done) (dead + done + size)
    moveToStart (write file done chunk) dead live (done + size)
  else
    file
termination_by live - done
decreasing_by
  simp only [chunkSize]
  omega

theorem le_size_moveToStart {file : ByteArray} {dead live done : Nat}
    (h : dead + live ≤ file.size) : live ≤ (moveToStart file dead live done).size := by
  unfold moveToStart
  split
  · refine le_size_moveToStart ?_
    rw [size_write (by omega)]
    omega
  · omega
termination_by live - done
decreasing_by
  simp only [chunkSize]
  omega

def append (log : FileLog) (bytes : ByteArray) : FileLog where
  file := write log.file (log.head - log.base) bytes
  base := log.base
  tail := log.tail
  head := log.head + bytes.size
  base_le_tail := log.base_le_tail
  tail_le_head := Nat.le_trans log.tail_le_head (Nat.le_add_right _ _)
  head_le_end := by
    have := log.base_le_tail
    have := log.tail_le_head
    have := log.head_le_end
    rw [size_write (by omega)]
    omega

def read (log : FileLog) (offset size : Nat) : Except LogError ByteArray :=
  if log.tail ≤ offset ∧ offset + size ≤ log.head then
    .ok (log.file.extract (offset - log.base) (offset - log.base + size))
  else
    .error (.outOfRange offset size log.tail log.head)

def truncate (log : FileLog) (offset : Nat) : FileLog where
  file := log.file
  base := log.base
  tail := log.tail
  head := ByteLog.clamp log.tail log.head offset
  base_le_tail := log.base_le_tail
  tail_le_head := ByteLog.le_clamp ..
  head_le_end := Nat.le_trans (ByteLog.clamp_le log.tail_le_head _) log.head_le_end

def compact (log : FileLog) : FileLog where
  file := (moveToStart log.file (log.tail - log.base) (log.head - log.tail) 0).extract 0
    (log.head - log.tail)
  base := log.tail
  tail := log.tail
  head := log.head
  base_le_tail := Nat.le_refl _
  tail_le_head := log.tail_le_head
  head_le_end := by
    have := log.base_le_tail
    have := log.tail_le_head
    have := log.head_le_end
    have := @le_size_moveToStart log.file (log.tail - log.base) (log.head - log.tail) 0 (by omega)
    rw [ByteArray.size_extract]
    omega

def advanceTail (log : FileLog) (offset : Nat) : FileLog :=
  let released : FileLog :=
    { log with
      tail := ByteLog.clamp log.tail log.head offset
      base_le_tail := Nat.le_trans log.base_le_tail (ByteLog.le_clamp ..)
      tail_le_head := ByteLog.clamp_le log.tail_le_head _ }
  let dead := released.tail - released.base
  if 0 < dead ∧ released.head - released.tail ≤ dead then released.compact else released

instance : ByteLog FileLog where
  tail := FileLog.tail
  head := FileLog.head
  append bytes := fun log => .ok log.head (log.append bytes)
  read offset size := fun log =>
    match log.read offset size with
    | .ok bytes => .ok bytes log
    | .error e => .error e log
  reset _ offset := ofOffset offset
  truncate := FileLog.truncate
  advanceTail := FileLog.advanceTail
  fresh := fun log => .ok (ofOffset 0) log

end FileLog

end Scrollback
