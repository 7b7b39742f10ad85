import Scrollback.Log.Memory
import Scrollback.Proofs.Log.Contents

/-!
This module contains the proof that a log in memory is reliable. When it forgets released bytes does
not show in its contents.
-/

namespace Scrollback

namespace MemoryLog

def contents (log : MemoryLog) : LogContents where
  tail := log.tail
  bytes := log.buffer.data.toList.drop (log.tail - log.base)

theorem head_contents (log : MemoryLog) : log.contents.head = log.head := by
  have := log.base_le_tail
  have := log.tail_le_head
  simp only [LogContents.head, contents, head, List.length_drop, Array.length_toList,
    ByteArray.size_data]
  omega

theorem contents_append (log : MemoryLog) (bytes : ByteArray) :
    (log.append bytes).contents = log.contents.append bytes.data.toList := by
  have := log.tail_le_head
  simp only [contents, append, LogContents.append, ByteArray.data_append, Array.toList_append]
  rw [List.drop_append_of_le_length]
  simp only [Array.length_toList, ByteArray.size_data]
  omega

theorem contents_truncate (log : MemoryLog) (offset : Nat) :
    (log.truncate offset).contents = log.contents.truncate offset := by
  have := log.base_le_tail
  have := log.tail_le_head
  simp only [contents, truncate, LogContents.truncate, ByteArray.data_extract, Array.toList_extract,
    List.extract_eq_take_drop, List.drop_zero, Nat.sub_zero, LogContents.mk.injEq, true_and]
  rw [List.drop_take]
  by_cases h : offset ≤ log.head
  · congr 1
    unfold ByteLog.clamp
    omega
  · unfold head at h
    rw [List.take_of_length_le, List.take_of_length_le]
    all_goals
      simp only [ByteLog.clamp, head, List.length_drop, Array.length_toList, ByteArray.size_data]
      omega

theorem contents_advanceTail (log : MemoryLog) (offset : Nat) :
    (log.advanceTail offset).contents = log.contents.advanceTail offset := by
  have := log.base_le_tail
  have := ByteLog.le_clamp log.tail log.head offset
  unfold advanceTail LogContents.advanceTail
  rw [head_contents]
  dsimp only
  split
  · simp only [contents, ByteArray.data_extract, Array.toList_extract, List.extract_eq_take_drop,
      Nat.sub_self, List.drop_zero, List.drop_drop, LogContents.mk.injEq, true_and]
    rw [List.take_of_length_le]
    · congr 1
      omega
    · simp
  · simp only [contents, List.drop_drop, LogContents.mk.injEq, true_and]
    congr 1
    omega

theorem read_eq_slice {log : MemoryLog} {offset size : Nat} (htail : log.tail ≤ offset)
    (hhead : offset + size ≤ log.head) :
    ∃ bytes, log.read offset size = .ok bytes
      ∧ bytes.data.toList = log.contents.slice offset size := by
  have := log.base_le_tail
  refine ⟨_, if_pos ⟨htail, hhead⟩, ?_⟩
  simp only [LogContents.slice, contents, ByteArray.data_extract, Array.toList_extract,
    List.extract_eq_take_drop, List.drop_drop]
  congr 2
  all_goals omega

instance : ReliableLog MemoryLog where
  contents := contents
  Fault _ := False
  tail_eq _ := rfl
  head_eq log := (head_contents log).symm
  contents_reset _ _ := by
    simp [ByteLog.reset, contents, ofOffset]
  contents_truncate := contents_truncate
  contents_advanceTail := contents_advanceTail
  append_law log bytes := ⟨(head_contents log).symm, contents_append log bytes⟩
  read_law log offset size htail hhead := by
    rw [head_contents] at hhead
    obtain ⟨bytes, hread, hbytes⟩ := read_eq_slice htail hhead
    simp only [Ends, ByteLog.read, hread]
    exact ⟨hbytes, trivial⟩
  fresh_law _ := rfl
  not_fault _ := id

instance : CheckedLog MemoryLog where
  read_outside log offset size h := by
    have hhead : (LawfulLog.contents log).head = log.head := head_contents log
    rw [hhead] at h ⊢
    have hread : log.read offset size = .error (.outOfRange offset size log.tail log.head) :=
      if_neg h
    simp only [Ends, ByteLog.read, hread]
    exact ⟨rfl, trivial⟩

end MemoryLog

end Scrollback
