import Scrollback.Log.Basic
import Scrollback.Proofs.Outcome

/-!
This module contains what a byte log holds, apart from how it holds it, and the laws that tie the
operations of a log to its contents.
-/

namespace Scrollback

structure LogContents where
  tail : Nat
  bytes : List UInt8
  deriving DecidableEq, Repr

namespace LogContents

def head (contents : LogContents) : Nat :=
  contents.tail + contents.bytes.length

def append (contents : LogContents) (bytes : List UInt8) : LogContents :=
  { contents with bytes := contents.bytes ++ bytes }

def slice (contents : LogContents) (offset size : Nat) : List UInt8 :=
  (contents.bytes.drop (offset - contents.tail)).take size

def truncate (contents : LogContents) (offset : Nat) : LogContents :=
  { contents with bytes := contents.bytes.take (offset - contents.tail) }

def advanceTail (contents : LogContents) (offset : Nat) : LogContents :=
  let tail := ByteLog.clamp contents.tail contents.head offset
  { tail, bytes := contents.bytes.drop (tail - contents.tail) }

theorem advanceTail_eq (contents : LogContents) (offset : Nat) (htail : contents.tail ≤ offset)
    (hhead : offset ≤ contents.head) :
    contents.advanceTail offset
      =
    { tail := offset, bytes := contents.bytes.drop (offset - contents.tail) } := by
  have : ByteLog.clamp contents.tail contents.head offset = offset := by
    unfold ByteLog.clamp
    omega
  simp only [advanceTail, this]

@[simp]
theorem head_append (contents : LogContents) (bytes : List UInt8) :
    (contents.append bytes).head = contents.head + bytes.length := by
  simp only [append, head, List.length_append]
  omega

theorem head_advanceTail (contents : LogContents) (offset : Nat) :
    (contents.advanceTail offset).head = contents.head := by
  simp only [advanceTail, ByteLog.clamp, head, List.length_drop]
  omega

theorem advanceTail_advanceTail (contents : LogContents) {offset offset' : Nat} (h : offset ≤ offset') :
    (contents.advanceTail offset).advanceTail offset' = contents.advanceTail offset' := by
  have hclamp : ByteLog.clamp (ByteLog.clamp contents.tail contents.head offset) contents.head offset'
      = ByteLog.clamp contents.tail contents.head offset' := by
    unfold ByteLog.clamp
    omega
  have htail := ByteLog.le_clamp contents.tail contents.head offset
  have htail' := ByteLog.le_clamp (ByteLog.clamp contents.tail contents.head offset) contents.head
    offset'
  have hhead := contents.head_advanceTail offset
  rw [hclamp] at htail'
  rw [advanceTail, hhead]
  simp only [advanceTail, hclamp, List.drop_drop]
  rw [Nat.add_comm, Nat.sub_add_sub_cancel htail' htail]

theorem tail_truncate (contents : LogContents) (offset : Nat) :
    (contents.truncate offset).tail = contents.tail := by
  rfl

theorem truncate_truncate (contents : LogContents) {offset offset' : Nat} (h : offset' ≤ offset) :
    (contents.truncate offset).truncate offset' = contents.truncate offset' := by
  simp only [truncate, List.take_take, Nat.min_eq_left (Nat.sub_le_sub_right h contents.tail)]

theorem truncate_append_head (contents : LogContents) (bytes : List UInt8) :
    (contents.append bytes).truncate contents.head = contents := by
  simp [truncate, append, head]

theorem truncate_head (contents : LogContents) : contents.truncate contents.head = contents := by
  simp [truncate, head]

end LogContents

/--
A byte log whose operations do to its contents what they should. Calls that can fail may do so at any
time with one of the errors in `Fault`, but then they leave the contents as they are.
-/
class LawfulLog (σ : Type) [ByteLog σ] where
  contents : σ → LogContents
  Fault : LogError → Prop
  tail_eq (log : σ) : ByteLog.tail log = (contents log).tail
  head_eq (log : σ) : ByteLog.head log = (contents log).head
  contents_reset (log : σ) (offset : Nat) :
    contents (ByteLog.reset log offset) = { tail := offset, bytes := [] }
  contents_truncate (log : σ) (offset : Nat) :
    contents (ByteLog.truncate log offset) = (contents log).truncate offset
  contents_advanceTail (log : σ) (offset : Nat) :
    contents (ByteLog.advanceTail log offset) = (contents log).advanceTail offset
  append_law (log : σ) (bytes : ByteArray) :
    Ends (ByteLog.append bytes) log
      (fun offset after =>
        offset = (contents log).head ∧ contents after = (contents log).append bytes.data.toList)
      (fun e after => Fault e ∧ contents after = contents log)
  read_law (log : σ) (offset size : Nat) (htail : (contents log).tail ≤ offset)
      (hhead : offset + size ≤ (contents log).head) :
    Ends (ByteLog.read offset size) log
      (fun bytes after =>
        bytes.data.toList = (contents log).slice offset size ∧ contents after = contents log)
      (fun e after => Fault e ∧ contents after = contents log)
  fresh_law (log : σ) :
    Ends (ByteLog.fresh : EStateM LogError σ σ) log
      (fun _ after => contents after = contents log)
      (fun e after => Fault e ∧ contents after = contents log)

class ReliableLog (σ : Type) [ByteLog σ] extends LawfulLog σ where
  not_fault (e : LogError) : ¬ Fault e

/--
A byte log whose calls do not fail, except that a read of what the log does not hold says so and
changes nothing.
-/
class CheckedLog (σ : Type) [ByteLog σ] extends ReliableLog σ where
  read_outside (log : σ) (offset size : Nat)
      (h : ¬ ((contents log).tail ≤ offset ∧ offset + size ≤ (contents log).head)) :
    Ends (ByteLog.read offset size) log (fun _ _ => False)
      (fun e after => e = .outOfRange offset size (contents log).tail (contents log).head
        ∧ contents after = contents log)

/--
A byte log that holds after a read what it held before, whether the read fails or not and whatever it
asks for.
-/
class SteadyLog (σ : Type) [ByteLog σ] extends LawfulLog σ where
  read_keeps (log : σ) (offset size : Nat) :
    Ends (ByteLog.read offset size) log (fun _ after => contents after = contents log)
      (fun _ after => contents after = contents log)

instance {σ : Type} [ByteLog σ] [CheckedLog σ] : SteadyLog σ where
  read_keeps log offset size := by
    by_cases h : (LawfulLog.contents log).tail ≤ offset
        ∧ offset + size ≤ (LawfulLog.contents log).head
    · apply (LawfulLog.read_law log offset size h.1 h.2).imp
      · exact fun bytes after hafter => hafter.2
      · exact fun e after hafter => hafter.2
    · apply (CheckedLog.read_outside log offset size h).imp
      · exact fun bytes after hafter => hafter.elim
      · exact fun e after hafter => hafter.2

end Scrollback
