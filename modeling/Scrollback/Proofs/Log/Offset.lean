import Scrollback.Proofs.Log.Calls
import Scrollback.Proofs.Log.File
import Scrollback.Proofs.Log.Memory

/-!
This module contains the byte log as it is described, a byte for each offset between two ends, and the
proof that nothing that is seen of a log in memory or in a file tells it from that one.
-/

namespace Scrollback

structure OffsetLog where
  tail : Nat
  head : Nat
  /--
  The byte at each offset from `tail` to before `head`. At other offsets it has no meaning.
  -/
  byte : Nat → UInt8
  tail_le_head : tail ≤ head

namespace OffsetLog

def ofOffset (offset : Nat) : OffsetLog where
  tail := offset
  head := offset
  byte _ := 0
  tail_le_head := Nat.le_refl offset

def append (log : OffsetLog) (bytes : ByteArray) : OffsetLog where
  tail := log.tail
  head := log.head + bytes.size
  byte offset :=
    if log.head ≤ offset then
      bytes.data.toList[offset - log.head]?.getD 0
    else
      log.byte offset
  tail_le_head := Nat.le_add_right_of_le log.tail_le_head

def bytes (log : OffsetLog) (offset size : Nat) : List UInt8 :=
  (List.range' offset size).map log.byte

def read (log : OffsetLog) (offset size : Nat) : Except LogError ByteArray :=
  if log.tail ≤ offset ∧ offset + size ≤ log.head then
    .ok (log.bytes offset size).toByteArray
  else
    .error (.outOfRange offset size log.tail log.head)

def truncate (log : OffsetLog) (offset : Nat) : OffsetLog where
  tail := log.tail
  head := ByteLog.clamp log.tail log.head offset
  byte := log.byte
  tail_le_head := ByteLog.le_clamp ..

def advanceTail (log : OffsetLog) (offset : Nat) : OffsetLog where
  tail := ByteLog.clamp log.tail log.head offset
  head := log.head
  byte := log.byte
  tail_le_head := ByteLog.clamp_le log.tail_le_head _

instance : ByteLog OffsetLog where
  tail := OffsetLog.tail
  head := OffsetLog.head
  append bytes := fun log => .ok log.head (log.append bytes)
  read offset size := fun log =>
    match log.read offset size with
    | .ok bytes => .ok bytes log
    | .error e => .error e log
  reset _ offset := ofOffset offset
  truncate := OffsetLog.truncate
  advanceTail := OffsetLog.advanceTail
  fresh := fun log => .ok (ofOffset 0) log

theorem length_bytes (log : OffsetLog) (offset size : Nat) :
    (log.bytes offset size).length = size := by
  rw [bytes, List.length_map, List.length_range']

theorem bytes_add (log : OffsetLog) (offset size size' : Nat) :
    log.bytes offset (size + size') = log.bytes offset size ++ log.bytes (offset + size) size' := by
  rw [bytes, ← List.range'_append_1, List.map_append, bytes, bytes]

theorem take_bytes (log : OffsetLog) {offset size count : Nat} (h : count ≤ size) :
    (log.bytes offset size).take count = log.bytes offset count := by
  rw [← Nat.add_sub_cancel' h, bytes_add]
  exact List.take_left' (log.length_bytes offset count)

theorem drop_bytes (log : OffsetLog) (offset size count : Nat) :
    (log.bytes offset size).drop count = log.bytes (offset + count) (size - count) := by
  rw [bytes, ← List.map_drop, List.drop_range', Nat.mul_one, bytes]

theorem bytes_append_old (log : OffsetLog) (added : ByteArray) {offset size : Nat}
    (h : offset + size ≤ log.head) : (log.append added).bytes offset size = log.bytes offset size := by
  apply List.map_congr_left
  intro place hplace
  rw [List.mem_range'_1] at hplace
  exact if_neg (by omega)

theorem bytes_append_new (log : OffsetLog) (added : ByteArray) :
    (log.append added).bytes log.head added.size = added.data.toList := by
  apply List.ext_getElem
  · rw [length_bytes, Array.length_toList, ByteArray.size_data]
  · intro k _ hk
    simp only [bytes, append, List.getElem_map, List.getElem_range', Nat.one_mul,
      Nat.le_add_right, if_true, Nat.add_sub_cancel_left]
    rw [List.getElem?_eq_getElem hk]
    rfl

def contents (log : OffsetLog) : LogContents where
  tail := log.tail
  bytes := log.bytes log.tail (log.head - log.tail)

theorem head_contents (log : OffsetLog) : log.contents.head = log.head := by
  rw [LogContents.head, contents, length_bytes, Nat.add_sub_cancel' log.tail_le_head]

theorem contents_append (log : OffsetLog) (bytes : ByteArray) :
    (log.append bytes).contents = log.contents.append bytes.data.toList := by
  have := log.tail_le_head
  have hend : log.tail + (log.head - log.tail) = log.head := by omega
  rw [contents, LogContents.append, contents, LogContents.mk.injEq]
  refine ⟨rfl, ?_⟩
  change (log.append bytes).bytes log.tail (log.head + bytes.size - log.tail) = _
  rw [show log.head + bytes.size - log.tail = log.head - log.tail + bytes.size by omega, bytes_add,
    hend, bytes_append_old log bytes (by omega), bytes_append_new]

theorem contents_truncate (log : OffsetLog) (offset : Nat) :
    (log.truncate offset).contents = log.contents.truncate offset := by
  have := log.tail_le_head
  have hle := ByteLog.clamp_le log.tail_le_head offset
  rw [contents, LogContents.truncate, contents, LogContents.mk.injEq]
  refine ⟨rfl, ?_⟩
  change log.bytes log.tail (ByteLog.clamp log.tail log.head offset - log.tail)
    = (log.bytes log.tail (log.head - log.tail)).take (offset - log.tail)
  by_cases h : offset ≤ log.head
  · rw [take_bytes log (by omega)]
    congr 1
    unfold ByteLog.clamp
    omega
  · rw [List.take_of_length_le (by rw [length_bytes]; omega)]
    congr 1
    unfold ByteLog.clamp
    omega

theorem contents_advanceTail (log : OffsetLog) (offset : Nat) :
    (log.advanceTail offset).contents = log.contents.advanceTail offset := by
  have hle := ByteLog.le_clamp log.tail log.head offset
  have hclamp : ByteLog.clamp log.contents.tail log.contents.head offset
      = ByteLog.clamp log.tail log.head offset := by
    rw [head_contents]
    rfl
  rw [LogContents.advanceTail, hclamp, contents, LogContents.mk.injEq]
  refine ⟨rfl, ?_⟩
  change log.bytes (ByteLog.clamp log.tail log.head offset) _ = List.drop (_ - log.tail) (log.bytes _ _)
  rw [drop_bytes, Nat.add_sub_cancel' hle]
  congr 1
  change log.head - ByteLog.clamp log.tail log.head offset = _
  omega

theorem read_eq_slice {log : OffsetLog} {offset size : Nat} (htail : log.tail ≤ offset)
    (hhead : offset + size ≤ log.head) :
    ∃ bytes, log.read offset size = .ok bytes
      ∧ bytes.data.toList = log.contents.slice offset size := by
  refine ⟨_, if_pos ⟨htail, hhead⟩, ?_⟩
  rw [List.data_toByteArray, List.toList_toArray, LogContents.slice, contents]
  dsimp only
  rw [drop_bytes, Nat.add_sub_cancel' htail, take_bytes log (by omega)]

instance : CheckedLog OffsetLog where
  contents := contents
  Fault _ := False
  tail_eq _ := rfl
  head_eq log := (head_contents log).symm
  contents_reset _ _ := by
    simp [ByteLog.reset, contents, ofOffset, bytes]
  contents_truncate := contents_truncate
  contents_advanceTail := contents_advanceTail
  append_law log bytes := ⟨(head_contents log).symm, contents_append log bytes⟩
  read_law log offset size htail hhead := by
    rw [head_contents] at hhead
    obtain ⟨bytes, hread, hbytes⟩ := read_eq_slice htail hhead
    simp only [Ends, ByteLog.read, hread]
    exact ⟨hbytes, trivial⟩
  fresh_law _ := rfl
  not_fault _ := id
  read_outside log offset size h := by
    rw [head_contents] at h ⊢
    have hread : log.read offset size = .error (.outOfRange offset size log.tail log.head) :=
      if_neg h
    simp only [Ends, ByteLog.read, hread]
    exact ⟨rfl, trivial⟩

end OffsetLog

namespace ByteLog

theorem tail_le_head_of_mem_trace {log : OffsetLog} {calls : List LogCall} {step : LogStep}
    (h : step ∈ trace log calls) : step.tail ≤ step.head := by
  induction calls generalizing log with
  | nil => nomatch h
  | cons c calls ih =>
    rcases List.mem_cons.mp h with rfl | h
    · exact OffsetLog.tail_le_head _
    · exact ih h

/--
Whatever calls are made, a log in memory and a log in a file show the same at each of them, which is
what a log shows that keeps its two ends and a byte for each offset between them.
-/
theorem trace_eq_trace (calls : List LogCall) :
    trace (MemoryLog.ofOffset 0) calls = trace (OffsetLog.ofOffset 0) calls
      ∧ trace (FileLog.ofOffset 0) calls = trace (OffsetLog.ofOffset 0) calls
      ∧ ∀ step ∈ trace (OffsetLog.ofOffset 0) calls, step.tail ≤ step.head := by
  refine ⟨?_, ?_, fun step => tail_le_head_of_mem_trace⟩
  · rw [CheckedLog.trace_eq, CheckedLog.trace_eq]
    rfl
  · rw [CheckedLog.trace_eq, CheckedLog.trace_eq]
    rfl

end ByteLog

end Scrollback
