import Scrollback.Log.File
import Scrollback.Proofs.Log.Contents

/-!
This module contains the proof that a log in a file is reliable. Neither the bytes that were dropped at
its head nor those that were released show in its contents, and compacting the file keeps these.
-/

namespace Scrollback

namespace FileLog

theorem toList_write (file : ByteArray) (position : Nat) (bytes : ByteArray) :
    (write file position bytes).data.toList
      =
    file.data.toList.take position
      ++ (bytes.data.toList ++ file.data.toList.drop (position + bytes.size)) := by
  simp only [write, ByteArray.copySlice_eq_append, ByteArray.data_append, Array.toList_append,
    ByteArray.data_extract, Array.toList_extract, List.extract_eq_take_drop, List.drop_zero,
    Nat.sub_zero, Nat.zero_add, List.append_assoc, ByteArray.size_data, Nat.min_self]
  congr 2
  · exact List.take_of_length_le (by simp)
  · exact List.take_of_length_le (by simp)

/--
The bytes are moved towards the start of the file, so none of them is written over before it is read.
-/
theorem take_moveToStart {file : ByteArray} {dead live done : Nat} (h : dead + live ≤ file.size)
    (hdone : done ≤ live) :
    (moveToStart file dead live done).data.toList.take live
      =
    file.data.toList.take done ++ (file.data.toList.drop (dead + done)).take (live - done) := by
  unfold moveToStart
  split
  · next hlt =>
    dsimp only
    have hsize : min (live - done) chunkSize ≤ live - done := Nat.min_le_left _ _
    have hpos : 0 < min (live - done) chunkSize := by
      simp only [chunkSize]
      omega
    generalize min (live - done) chunkSize = size at hsize hpos
    have hchunk : (file.extract (dead + done) (dead + done + size)).data.toList
        = (file.data.toList.drop (dead + done)).take size := by
      rw [ByteArray.data_extract, Array.toList_extract, List.extract_eq_take_drop,
        Nat.add_sub_cancel_left]
    have hlength : (file.extract (dead + done) (dead + done + size)).size = size := by
      rw [ByteArray.size_extract]
      omega
    generalize file.extract (dead + done) (dead + done + size) = chunk at hchunk hlength
    have hbound : dead + live ≤ (write file done chunk).size := by
      rw [size_write (by omega)]
      omega
    have hfile : file.data.toList.length = file.size := by simp
    have htake : (file.data.toList.take done).length = done :=
      List.length_take_of_le (by omega)
    rw [take_moveToStart hbound (by omega), toList_write, hlength, ← List.append_assoc,
      List.take_left' (by rw [List.length_append, htake, ← hlength]; rfl),
      show dead + (done + size) = done + size + dead by omega, ← List.drop_drop,
      List.drop_left' (by rw [List.length_append, htake, ← hlength]; rfl), List.drop_drop, hchunk,
      List.append_assoc]
    congr 1
    rw [show live - done = size + (live - (done + size)) by omega, List.take_add, List.drop_drop]
    congr 3
    omega
  · rw [Nat.le_antisymm hdone (by omega), Nat.sub_self, List.take_zero, List.append_nil]
termination_by live - done
decreasing_by
  simp only [chunkSize]
  omega

def contents (log : FileLog) : LogContents where
  tail := log.tail
  bytes := (log.file.data.toList.drop (log.tail - log.base)).take (log.head - log.tail)

theorem length_contents (log : FileLog) : log.contents.bytes.length = log.head - log.tail := by
  have := log.base_le_tail
  have := log.tail_le_head
  have := log.head_le_end
  simp only [contents, List.length_take, List.length_drop, Array.length_toList,
    ByteArray.size_data]
  omega

theorem head_contents (log : FileLog) : log.contents.head = log.head := by
  have := log.tail_le_head
  rw [LogContents.head, length_contents]
  simp only [contents]
  omega

theorem contents_append (log : FileLog) (bytes : ByteArray) :
    (log.append bytes).contents = log.contents.append bytes.data.toList := by
  have := log.base_le_tail
  have := log.tail_le_head
  have := log.head_le_end
  have hlength := log.length_contents
  simp only [contents] at hlength
  simp only [contents, append, LogContents.append, LogContents.mk.injEq, true_and]
  rw [toList_write, List.drop_append_of_le_length (by simp; omega), List.drop_take,
    show log.head - log.base - (log.tail - log.base) = log.head - log.tail by omega,
    ← List.append_assoc]
  apply List.take_left'
  rw [List.length_append, hlength, Array.length_toList, ByteArray.size_data]
  omega

theorem contents_truncate (log : FileLog) (offset : Nat) :
    (log.truncate offset).contents = log.contents.truncate offset := by
  have := log.tail_le_head
  simp only [contents, truncate, LogContents.truncate, LogContents.mk.injEq, true_and]
  rw [List.take_take]
  congr 1
  unfold ByteLog.clamp
  omega

theorem contents_compact (log : FileLog) : log.compact.contents = log.contents := by
  have := log.base_le_tail
  have := log.tail_le_head
  have := log.head_le_end
  simp only [contents, compact, LogContents.mk.injEq, true_and, ByteArray.data_extract,
    Array.toList_extract, List.extract_eq_take_drop, List.drop_zero, Nat.sub_self, Nat.sub_zero]
  rw [List.take_take, Nat.min_self, take_moveToStart (by omega) (Nat.zero_le _), List.take_zero,
    List.nil_append, Nat.add_zero, Nat.sub_zero]

theorem contents_advanceTail (log : FileLog) (offset : Nat) :
    (log.advanceTail offset).contents = log.contents.advanceTail offset := by
  have := log.base_le_tail
  have hle := ByteLog.le_clamp log.tail log.head offset
  have hdrop : log.tail - log.base + (ByteLog.clamp log.tail log.head offset - log.tail)
      = ByteLog.clamp log.tail log.head offset - log.base := by
    omega
  have htake : log.head - log.tail - (ByteLog.clamp log.tail log.head offset - log.tail)
      = log.head - ByteLog.clamp log.tail log.head offset := by
    omega
  unfold advanceTail LogContents.advanceTail
  rw [head_contents]
  dsimp only
  split
  · rw [contents_compact]
    simp only [contents, List.drop_take, List.drop_drop, hdrop, htake]
  · simp only [contents, List.drop_take, List.drop_drop, hdrop, htake]

theorem read_eq_slice {log : FileLog} {offset size : Nat} (htail : log.tail ≤ offset)
    (hhead : offset + size ≤ log.head) :
    ∃ bytes, log.read offset size = .ok bytes
      ∧ bytes.data.toList = log.contents.slice offset size := by
  have := log.base_le_tail
  refine ⟨_, if_pos ⟨htail, hhead⟩, ?_⟩
  simp only [LogContents.slice, contents, ByteArray.data_extract, Array.toList_extract,
    List.extract_eq_take_drop, List.drop_take, List.drop_drop, List.take_take]
  congr 2
  all_goals omega

instance : ReliableLog FileLog where
  contents := contents
  Fault _ := False
  tail_eq _ := rfl
  head_eq log := (head_contents log).symm
  contents_reset _ _ := by
    simp [ByteLog.reset, contents, ofOffset]
  contents_truncate := contents_truncate
  contents_advanceTail := contents_advanceTail
  append_law log bytes := ⟨(head_contents log).symm, contents_append log bytes⟩
  read_law log offset size htail hhead := by
    rw [head_contents] at hhead
    obtain ⟨bytes, hread, hbytes⟩ := read_eq_slice htail hhead
    simp only [Ends, ByteLog.read, hread]
    exact ⟨hbytes, trivial⟩
  fresh_law _ := rfl
  not_fault _ := id

instance : CheckedLog FileLog where
  read_outside log offset size h := by
    have hhead : (LawfulLog.contents log).head = log.head := head_contents log
    rw [hhead] at h ⊢
    have hread : log.read offset size = .error (.outOfRange offset size log.tail log.head) :=
      if_neg h
    simp only [Ends, ByteLog.read, hread]
    exact ⟨rfl, trivial⟩

end FileLog

end Scrollback
