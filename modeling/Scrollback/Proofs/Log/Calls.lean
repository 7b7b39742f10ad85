import Mathlib
import Scrollback.Proofs.Log.Contents

/-!
This module contains the calls of a byte log and the proof that what they return is determined by what
the log holds.
-/

namespace Scrollback

inductive LogCall where
  | append (bytes : ByteArray)
  | read (offset size : Nat)
  | reset (offset : Nat)
  | truncate (offset : Nat)
  | advanceTail (offset : Nat)

inductive LogAnswer where
  | done
  | offset (offset : Nat)
  | bytes (bytes : ByteArray)
  deriving DecidableEq

structure LogStep where
  result : Except LogError LogAnswer
  tail : Nat
  head : Nat

namespace ByteLog

variable {σ : Type} [ByteLog σ]

def call : LogCall → EStateM LogError σ LogAnswer
  | .append bytes => return .offset (← append bytes)
  | .read offset size => return .bytes (← read offset size)
  | .reset offset => do
    modify (reset · offset)
    return .done
  | .truncate offset => do
    modify (truncate · offset)
    return .done
  | .advanceTail offset => do
    modify (advanceTail · offset)
    return .done

def trace (log : σ) : List LogCall → List LogStep
  | [] => []
  | c :: calls =>
    let after := final (call c) log
    { result := outcome (call c) log, tail := tail after, head := head after } :: trace after calls

end ByteLog

namespace LogContents

def call (contents : LogContents) : LogCall → LogContents × Except LogError LogAnswer
  | .append bytes => (contents.append bytes.data.toList, .ok (.offset contents.head))
  | .read offset size =>
    if contents.tail ≤ offset ∧ offset + size ≤ contents.head then
      (contents, .ok (.bytes (contents.slice offset size).toByteArray))
    else
      (contents, .error (.outOfRange offset size contents.tail contents.head))
  | .reset offset => ({ tail := offset, bytes := [] }, .ok .done)
  | .truncate offset => (contents.truncate offset, .ok .done)
  | .advanceTail offset => (contents.advanceTail offset, .ok .done)

def trace (contents : LogContents) : List LogCall → List LogStep
  | [] => []
  | c :: calls =>
    let (after, result) := contents.call c
    { result, tail := after.tail, head := after.head } :: after.trace calls

end LogContents

namespace CheckedLog

variable {σ : Type} [ByteLog σ] [CheckedLog σ]

theorem ends_append (log : σ) (bytes : ByteArray) :
    Ends (ByteLog.append bytes) log
      (fun offset after => offset = (LawfulLog.contents log).head
        ∧ LawfulLog.contents after = (LawfulLog.contents log).append bytes.data.toList)
      (fun _ _ => False) := by
  apply (LawfulLog.append_law log bytes).imp
  · exact fun offset after h => h
  · exact fun e after h => ReliableLog.not_fault e h.1

theorem ends_read (log : σ) (offset size : Nat) :
    Ends (ByteLog.read offset size) log
      (fun bytes after => LawfulLog.contents after = LawfulLog.contents log
        ∧ (LawfulLog.contents log).call (.read offset size)
          = (LawfulLog.contents log, .ok (.bytes bytes)))
      (fun e after => LawfulLog.contents after = LawfulLog.contents log
        ∧ (LawfulLog.contents log).call (.read offset size)
          = (LawfulLog.contents log, .error e)) := by
  rw [LogContents.call]
  split
  · next h =>
    apply (LawfulLog.read_law log offset size h.1 h.2).imp
    · rintro bytes after ⟨hbytes, hafter⟩
      refine ⟨hafter, ?_⟩
      have hdata : bytes.data.toList.toByteArray = bytes := by
        apply ByteArray.ext
        rw [List.data_toByteArray, Array.toArray_toList]
      rw [← hbytes, hdata]
    · exact fun e after h => absurd h.1 (ReliableLog.not_fault e)
  · next h =>
    apply (CheckedLog.read_outside log offset size h).imp
    · exact fun _ _ h => h.elim
    · rintro _ after ⟨rfl, hafter⟩
      exact ⟨hafter, rfl⟩

theorem call_eq (log : σ) (c : LogCall) :
    (LawfulLog.contents (final (ByteLog.call c) log), outcome (ByteLog.call c) log)
      =
    (LawfulLog.contents log).call c := by
  apply Ends.outcome_final (p := fun result after =>
    (LawfulLog.contents after, result) = (LawfulLog.contents log).call c)
  cases c with
  | append bytes =>
    rw [ByteLog.call, ends_bind]
    apply (ends_append log bytes).imp
    · rintro _ after ⟨rfl, hafter⟩
      rw [ends_pure, hafter, LogContents.call]
    · exact fun _ _ h => h.elim
  | read offset size =>
    rw [ByteLog.call, ends_bind]
    apply (ends_read log offset size).imp
    · rintro bytes after ⟨hafter, hcall⟩
      rw [ends_pure, hafter, hcall]
    · rintro e after ⟨hafter, hcall⟩
      rw [hafter, hcall]
  | reset offset =>
    rw [ByteLog.call, ends_bind, ends_modify, ends_pure, LawfulLog.contents_reset, LogContents.call]
  | truncate offset =>
    rw [ByteLog.call, ends_bind, ends_modify, ends_pure, LawfulLog.contents_truncate,
      LogContents.call]
  | advanceTail offset =>
    rw [ByteLog.call, ends_bind, ends_modify, ends_pure, LawfulLog.contents_advanceTail,
      LogContents.call]

theorem trace_eq (log : σ) (calls : List LogCall) :
    ByteLog.trace log calls = (LawfulLog.contents log).trace calls := by
  induction calls generalizing log with
  | nil => rfl
  | cons c calls ih =>
    rw [ByteLog.trace, LogContents.trace, ← call_eq log c]
    dsimp only
    rw [ih, LawfulLog.tail_eq, LawfulLog.head_eq]

end CheckedLog

end Scrollback
