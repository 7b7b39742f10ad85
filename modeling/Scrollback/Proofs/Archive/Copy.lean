import Scrollback.Archive.Copy
import Scrollback.Proofs.Archive.Read

/-!
This module contains the proof that copying the text of frozen rows writes all of it, in order and
whatever its length.
-/

namespace Scrollback

/--
Whether `written` goes on to say what a sink is like after each write, given the bytes that it got
before, and every error of a write is one of `Refusal`.
-/
def Sink.Tracks {κ : Type} [Sink κ] (written : List UInt8 → κ → Prop) (Refusal : String → Prop) :
    Prop :=
  ∀ before bytes sink, written before sink →
    Ends (Sink.write bytes) sink (fun _ => written (before ++ bytes.data.toList))
      (fun message _ => Refusal message)

def Sink.writeAll {κ : Type} [Sink κ] : List ByteArray → EStateM String κ Unit
  | [] => pure ()
  | piece :: pieces => do
    Sink.write piece
    writeAll pieces

namespace Sink

variable {κ : Type} [Sink κ] {piece : ByteArray} {sink after : κ}

theorem writeAll_cons_of_ok (h : write piece sink = .ok () after) (pieces : List ByteArray) :
    writeAll (piece :: pieces) sink = writeAll pieces after := by
  simp only [writeAll, bind, EStateM.bind, h]

theorem writeAll_cons_of_error {message : String} (h : write piece sink = .error message after)
    (pieces : List ByteArray) : writeAll (piece :: pieces) sink = .error message after := by
  simp only [writeAll, bind, EStateM.bind, h]

theorem Tracks.ends_writeAll {written : List UInt8 → κ → Prop} {Refusal : String → Prop}
    (h : Tracks written Refusal) (pieces : List ByteArray) {before : List UInt8}
    (hsink : written before sink) :
    Ends (writeAll pieces) sink
      (fun _ => written (before ++ pieces.flatMap (·.data.toList)))
      (fun message _ => Refusal message) := by
  induction pieces generalizing before sink with
  | nil =>
    rw [writeAll, ends_pure, List.flatMap_nil, List.append_nil]
    exact hsink
  | cons piece pieces ih =>
    rw [writeAll, ends_bind, List.flatMap_cons, ← List.append_assoc]
    apply (h before piece sink hsink).imp
    · exact fun _ next hnext => ih hnext
    · exact fun message after hmessage => hmessage

end Sink

theorem LogContents.slice_add {contents : LogContents} {offset : Nat} (h : contents.tail ≤ offset)
    (size size' : Nat) :
    contents.slice offset (size + size')
      =
    contents.slice offset size ++ contents.slice (offset + size) size' := by
  rw [slice, List.take_add, List.drop_drop, slice, slice,
    show offset + size - contents.tail = offset - contents.tail + size by omega]

theorem LogContents.slice_tail (contents : LogContents) :
    contents.slice contents.tail (contents.head - contents.tail) = contents.bytes := by
  rw [slice, Nat.sub_self, List.drop_zero, head, Nat.add_sub_cancel_left, List.take_length]

namespace Archive

section

variable {σ κ : Type}

theorem ends_copyFrom_write [Sink κ] {archive : Archive σ} {sink : κ} {bytes : ByteArray}
    {ok : Unit → Archive σ × κ → Prop} {err : RingError → Archive σ × κ → Prop} :
    Ends (copyFrom.write bytes) (archive, sink) ok err
      ↔
    Ends (Sink.write bytes) sink (fun _ after => ok () (archive, after))
      (fun message after => err (.sink message) (archive, after)) := by
  simp only [Ends, copyFrom.write]
  cases Sink.write bytes sink <;> rfl

theorem ends_copyFrom_onArchive {α : Type} {action : EStateM RingError (Archive σ) α}
    {archive : Archive σ} {sink : κ} {ok : α → Archive σ × κ → Prop}
    {err : RingError → Archive σ × κ → Prop} :
    Ends (copyFrom.onArchive action) (archive, sink) ok err
      ↔
    Ends action archive (fun a after => ok a (after, sink)) (fun e after => err e (after, sink)) := by
  simp only [Ends, copyFrom.onArchive]
  cases action archive <;> rfl

end

def pieces (text : LogContents) (head start : Nat) : List ByteArray :=
  if start < head then
    let size := min (head - start) chunkSize
    (text.slice start size).toByteArray :: pieces text head (start + size)
  else
    []
termination_by head - start
decreasing_by
  simp only [chunkSize]
  omega

theorem flatMap_pieces {text : LogContents} {head start : Nat} (h : text.tail ≤ start) :
    (pieces text head start).flatMap (·.data.toList) = text.slice start (head - start) := by
  unfold pieces
  split
  · next hlt =>
    have hpos : 0 < min (head - start) chunkSize := by
      simp only [chunkSize]
      omega
    have hchunk : min (head - start) chunkSize ≤ head - start := Nat.min_le_left _ _
    dsimp only
    generalize min (head - start) chunkSize = size at hpos hchunk
    rw [List.flatMap_cons, flatMap_pieces (Nat.le_add_right_of_le h), List.data_toByteArray,
      List.toList_toArray, ← LogContents.slice_add h,
      show size + (head - (start + size)) = head - start by omega]
  · next hge =>
    rw [Nat.sub_eq_zero_of_le (Nat.not_lt.mp hge), LogContents.slice, List.take_zero]
    rfl
termination_by head - start

variable {σ κ : Type} [ByteLog σ] [LawfulLog σ] [Sink κ] {written : List UInt8 → κ → Prop}
  {Refusal : String → Prop} {contents : ArchiveContents}

def IsCopyFailure (σ : Type) [ByteLog σ] [LawfulLog σ] (Refusal : String → Prop) (e : RingError) :
    Prop :=
  IsFault σ e ∨ ∃ message, e = .sink message ∧ Refusal message

theorem ends_copyFrom_pieces {archive : Archive σ} (harchive : archive.contents = contents)
    {head start : Nat} (htail : contents.text.tail ≤ start) (hhead : head ≤ contents.text.head)
    (sink : κ) :
    Ends (copyFrom head start) (archive, sink)
      (fun _ after => after.1.contents = contents
        ∧ Sink.writeAll (pieces contents.text head start) sink = .ok () after.2)
      (fun e after => IsCopyFailure σ
          (fun message =>
            Sink.writeAll (pieces contents.text head start) sink = .error message after.2) e
        ∧ after.1.contents = contents) := by
  unfold copyFrom pieces
  split
  · next hlt =>
    have hchunk : start + min (head - start) chunkSize ≤ head := by omega
    have hpos : 0 < min (head - start) chunkSize := by
      simp only [chunkSize]
      omega
    dsimp only
    generalize min (head - start) chunkSize = size at hchunk hpos
    have hread : Reads (σ := σ) (onLog .text (ByteLog.read start size)) contents
        (contents.text.slice start size).toByteArray :=
      Reads.onLog_read htail (Nat.le_trans hchunk hhead)
    refine ends_bind.mpr (ends_copyFrom_onArchive.mpr ?_)
    apply hread.imp_ends harchive
    · intro archive harchive
      refine ends_bind.mpr (ends_copyFrom_write.mpr ?_)
      apply (Ends.of_forall (fun _ _ => trivial) fun _ _ => trivial).with_result.imp
      · rintro _ next ⟨-, hwrite⟩
        rw [Sink.writeAll_cons_of_ok hwrite]
        exact ends_copyFrom_pieces harchive (Nat.le_add_right_of_le htail) hhead next
      · rintro message after ⟨-, hwrite⟩
        rw [Sink.writeAll_cons_of_error hwrite]
        exact ⟨Or.inr ⟨message, rfl, rfl⟩, harchive⟩
    · exact fun e archive he harchive => ⟨Or.inl he, harchive⟩
  · exact ⟨harchive, rfl⟩
termination_by head - start

theorem ends_copyText_pieces {archive : Archive σ} (harchive : archive.contents = contents)
    (sink : κ) :
    Ends copyText (archive, sink)
      (fun _ after => after.1.contents = contents
        ∧ Sink.writeAll (pieces contents.text contents.text.head contents.text.tail) sink
          = .ok () after.2)
      (fun e after => IsCopyFailure σ
          (fun message =>
            Sink.writeAll (pieces contents.text contents.text.head contents.text.tail) sink
              = .error message after.2) e
        ∧ after.1.contents = contents) := by
  unfold copyText
  rw [ends_bind, ends_get]
  dsimp only
  rw [head_text, tail_text, harchive]
  exact ends_copyFrom_pieces harchive (Nat.le_refl _) (Nat.le_refl _) sink

theorem ends_copyText (hwritten : Sink.Tracks written Refusal) {archive : Archive σ}
    (harchive : archive.contents = contents) {sink : κ} (hsink : written [] sink) :
    Ends copyText (archive, sink)
      (fun _ after => after.1.contents = contents ∧ written contents.text.bytes after.2)
      (fun e after => IsCopyFailure σ Refusal e ∧ after.1.contents = contents) := by
  have hpieces := hwritten.ends_writeAll
    (pieces contents.text contents.text.head contents.text.tail) hsink
  rw [flatMap_pieces (Nat.le_refl _), LogContents.slice_tail, List.nil_append] at hpieces
  apply (ends_copyText_pieces harchive sink).imp
  · rintro _ after ⟨hafter, hwrite⟩
    exact ⟨hafter, hpieces.of_ok hwrite⟩
  · rintro e after ⟨hfault | ⟨message, rfl, hwrite⟩, hafter⟩
    · exact ⟨Or.inl hfault, hafter⟩
    · exact ⟨Or.inr ⟨message, rfl, hpieces.of_error hwrite⟩, hafter⟩

end Archive

end Scrollback
