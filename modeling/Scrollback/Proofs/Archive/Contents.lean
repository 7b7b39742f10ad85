import Mathlib.Algebra.Order.Ring.Nat
import Scrollback.Archive.Basic
import Scrollback.Proofs.Log.Contents
import Scrollback.Proofs.Outcome

/-!
This module contains what an archive holds, and the laws of the actions that only read it.
-/

namespace Scrollback

structure ArchiveContents where
  rows : LogContents
  text : LogContents
  attributes : LogContents
  openRun : OpenRun
  deriving DecidableEq

namespace ArchiveContents

/--
Whether the offsets in the text and attribute logs are numbers of 64 bits, which is how entries
store them.
-/
def InRange (contents : ArchiveContents) : Prop :=
  contents.text.head < 2 ^ 64 ∧ contents.attributes.head < 2 ^ 64

instance (contents : ArchiveContents) : Decidable contents.InRange :=
  inferInstanceAs (Decidable (_ ∧ _))

def log (contents : ArchiveContents) : LogName → LogContents
  | .row => contents.rows
  | .text => contents.text
  | .attribute => contents.attributes

def append (contents : ArchiveContents) (bytes : List UInt8) : LogName → ArchiveContents
  | .row => { contents with rows := contents.rows.append bytes }
  | .text => { contents with text := contents.text.append bytes }
  | .attribute => { contents with attributes := contents.attributes.append bytes }

def reset (contents : ArchiveContents) (index : Nat) : ArchiveContents where
  rows := { tail := RowEntry.offsetOf index, bytes := [] }
  text := { tail := contents.text.head, bytes := [] }
  attributes := { tail := contents.attributes.head, bytes := [] }
  openRun := { start := contents.text.head }

@[simp]
theorem inRange_reset (contents : ArchiveContents) (index : Nat) :
    (contents.reset index).InRange ↔ contents.InRange := by
  rfl

theorem reset_reset (contents : ArchiveContents) (index index' : Nat) :
    (contents.reset index).reset index' = contents.reset index' := by
  rfl

def advanceTails (contents : ArchiveContents) (index : Nat) (entry : RowEntry) :
    ArchiveContents where
  rows := contents.rows.advanceTail (RowEntry.offsetOf index)
  text := contents.text.advanceTail entry.textStart.toNat
  attributes := contents.attributes.advanceTail entry.styleStart.toNat
  openRun := contents.openRun

theorem inRange_advanceTails (contents : ArchiveContents) (index : Nat) (entry : RowEntry) :
    (contents.advanceTails index entry).InRange ↔ contents.InRange := by
  simp only [InRange, advanceTails, LogContents.head_advanceTail]

end ArchiveContents

namespace Archive

variable {σ α β : Type}

def log (archive : Archive σ) : LogName → σ
  | .row => archive.rows
  | .text => archive.text
  | .attribute => archive.attributes

def setLog (archive : Archive σ) (log : σ) : LogName → Archive σ
  | .row => { archive with rows := log }
  | .text => { archive with text := log }
  | .attribute => { archive with attributes := log }

@[simp]
theorem ends_onLog {archive : Archive σ} {name : LogName} {action : EStateM LogError σ α}
    {ok : α → Archive σ → Prop} {err : RingError → Archive σ → Prop} :
    Ends (onLog name action) archive ok err
      ↔
    Ends action (archive.log name) (fun a log => ok a (archive.setLog log name))
      (fun e log => err (.log name e) (archive.setLog log name)) := by
  cases name
  · simp only [Ends, onLog, log]
    cases action archive.rows <;> rfl
  · simp only [Ends, onLog, log]
    cases action archive.text <;> rfl
  · simp only [Ends, onLog, log]
    cases action archive.attributes <;> rfl

variable [ByteLog σ] [LawfulLog σ]

def contents (archive : Archive σ) : ArchiveContents where
  rows := LawfulLog.contents archive.rows
  text := LawfulLog.contents archive.text
  attributes := LawfulLog.contents archive.attributes
  openRun := archive.openRun

theorem contents_log (archive : Archive σ) (name : LogName) :
    LawfulLog.contents (archive.log name) = archive.contents.log name := by
  cases name <;> rfl

theorem contents_setLog (archive : Archive σ) {name : LogName} {after : σ}
    (h : LawfulLog.contents after = LawfulLog.contents (archive.log name)) :
    (archive.setLog after name).contents = archive.contents := by
  cases name
  all_goals
    rw [log] at h
    simp only [contents, setLog, h]

/--
Whether an error is that of a log which failed although it was asked for nothing that is not there.
-/
def IsFault (σ : Type) [ByteLog σ] [LawfulLog σ] (e : RingError) : Prop :=
  ∃ name cause, e = .log name cause ∧ LawfulLog.Fault σ cause

theorem not_isFault {σ : Type} [ByteLog σ] [ReliableLog σ] (e : RingError) : ¬ IsFault σ e := by
  rintro ⟨_, cause, _, hcause⟩
  exact ReliableLog.not_fault cause hcause

theorem isFault_log {name : LogName} {cause : LogError} (h : LawfulLog.Fault σ cause) :
    IsFault σ (.log name cause) :=
  ⟨name, cause, rfl, h⟩

theorem tail_text (archive : Archive σ) : ByteLog.tail archive.text = archive.contents.text.tail :=
  LawfulLog.tail_eq _

theorem tail_attributes (archive : Archive σ) :
    ByteLog.tail archive.attributes = archive.contents.attributes.tail :=
  LawfulLog.tail_eq _

theorem head_rows (archive : Archive σ) : ByteLog.head archive.rows = archive.contents.rows.head :=
  LawfulLog.head_eq _

theorem head_text (archive : Archive σ) : ByteLog.head archive.text = archive.contents.text.head :=
  LawfulLog.head_eq _

theorem head_attributes (archive : Archive σ) :
    ByteLog.head archive.attributes = archive.contents.attributes.head :=
  LawfulLog.head_eq _

def InRange (archive : Archive σ) : Prop :=
  ByteLog.head archive.text < 2 ^ 64 ∧ ByteLog.head archive.attributes < 2 ^ 64

instance (archive : Archive σ) : Decidable archive.InRange :=
  inferInstanceAs (Decidable (_ ∧ _))

theorem inRange_iff {archive : Archive σ} : archive.InRange ↔ archive.contents.InRange := by
  rw [InRange, head_text, head_attributes]
  rfl

theorem contents_ofLogs (rows text attributes : σ) :
    (ofLogs rows text attributes).contents
      =
    { rows := { tail := 0, bytes := [] }
      text := { tail := 0, bytes := [] }
      attributes := { tail := 0, bytes := [] }
      openRun := {} } := by
  simp only [contents, ofLogs, LawfulLog.contents_reset]

theorem contents_reset (archive : Archive σ) (index : Nat) :
    (archive.reset index).contents = archive.contents.reset index := by
  simp only [contents, reset, ArchiveContents.reset, LawfulLog.contents_reset, LawfulLog.head_eq]

theorem contents_advanceTails (archive : Archive σ) (index : Nat) (entry : RowEntry) :
    (archive.advanceTails index entry).contents
      =
    archive.contents.advanceTails index entry := by
  simp only [contents, advanceTails, ArchiveContents.advanceTails, LawfulLog.contents_advanceTail]

theorem toByteArray_eq {bytes : ByteArray} {list : List UInt8} (h : bytes.data.toList = list) :
    bytes = list.toByteArray := by
  apply ByteArray.ext
  apply Array.ext'
  rw [h, List.data_toByteArray]

/--
The action returns `a` when the archive holds `contents`, unless a log fails, and leaves what the
archive holds as it is.
-/
def Reads (action : EStateM RingError (Archive σ) α) (contents : ArchiveContents) (a : α) : Prop :=
  ∀ archive : Archive σ, archive.contents = contents →
    Ends action archive (fun b after => b = a ∧ after.contents = contents)
      (fun e after => IsFault σ e ∧ after.contents = contents)

namespace Reads

variable {contents : ArchiveContents}

theorem pure (a : α) : Reads (pure a : EStateM RingError (Archive σ) α) contents a := by
  intro archive h
  exact ⟨rfl, h⟩

theorem bind {action : EStateM RingError (Archive σ) α} {f : α → EStateM RingError (Archive σ) β}
    {a : α} {b : β} (haction : Reads action contents a) (hf : Reads (f a) contents b) :
    Reads (action >>= f) contents b := by
  intro archive h
  rw [ends_bind]
  apply (haction archive h).imp
  · rintro _ after ⟨rfl, hafter⟩
    exact hf after hafter
  · intro e after herr
    exact herr

theorem get_bind {f : Archive σ → EStateM RingError (Archive σ) β} {b : β}
    (hf : ∀ archive : Archive σ, archive.contents = contents → Reads (f archive) contents b) :
    Reads (get >>= f) contents b := by
  intro archive h
  rw [ends_bind, ends_get]
  exact hf archive h archive h

theorem imp_ends {action : EStateM RingError (Archive σ) α} {a : α} {archive : Archive σ}
    {ok : α → Archive σ → Prop} {err : RingError → Archive σ → Prop}
    (h : Reads action contents a) (harchive : archive.contents = contents)
    (hok : ∀ after : Archive σ, after.contents = contents → ok a after)
    (herr : ∀ e (after : Archive σ), IsFault σ e → after.contents = contents → err e after) :
    Ends action archive ok err := by
  apply (h archive harchive).imp
  · rintro _ after ⟨rfl, hafter⟩
    exact hok after hafter
  · rintro e after ⟨he, hafter⟩
    exact herr e after he hafter

theorem onLog_read {name : LogName} {offset size : Nat}
    (htail : (contents.log name).tail ≤ offset)
    (hhead : offset + size ≤ (contents.log name).head) :
    Reads (σ := σ) (onLog name (ByteLog.read offset size)) contents
      ((contents.log name).slice offset size).toByteArray := by
  rintro archive rfl
  rw [← contents_log] at *
  rw [ends_onLog]
  apply (LawfulLog.read_law (archive.log name) offset size htail hhead).imp
  · rintro bytes after ⟨hbytes, hafter⟩
    exact ⟨toByteArray_eq hbytes, contents_setLog archive hafter⟩
  · rintro e after ⟨he, hafter⟩
    exact ⟨isFault_log he, contents_setLog archive hafter⟩

end Reads

theorem Reads.run'_eq {σ : Type} [ByteLog σ] [ReliableLog σ]
    {action : EStateM RingError (Archive σ) α} {archive : Archive σ} {a : α}
    (h : Reads action archive.contents a) : action.run' archive = some a := by
  obtain ⟨_, after, hrun, rfl, _⟩ := (h archive rfl).exists_ok fun e _ herr => not_isFault e herr.1
  exact run'_of_ok hrun

end Archive

end Scrollback
