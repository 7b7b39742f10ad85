import Scrollback.Archive.Entry
import Scrollback.Archive.Run
import Scrollback.Error

/-!
This module contains the archive of frozen rows. Their text, their styles and their entries are kept
in one log each.
-/

namespace Scrollback

structure Archive (σ : Type) where
  rows : σ
  /--
  The text log: the characters of all frozen rows in UTF-8. Combining characters follow their base
  character, fragments are left out, and a row that is not soft-wrapped ends in a line break.
  -/
  text : σ
  attributes : σ
  openRun : OpenRun := {}

namespace Archive

variable {σ α : Type}

def onLog (name : LogName) (action : EStateM LogError σ α) : EStateM RingError (Archive σ) α
  | ⟨rows, text, attributes, openRun⟩ =>
    match name with
    | .row => finish (action rows) (⟨·, text, attributes, openRun⟩)
    | .text => finish (action text) (⟨rows, ·, attributes, openRun⟩)
    | .attribute => finish (action attributes) (⟨rows, text, ·, openRun⟩)
where
  finish (result : EStateM.Result LogError σ α) (setLog : σ → Archive σ) :
      EStateM.Result RingError (Archive σ) α :=
    match result with
    | .ok a log => .ok a (setLog log)
    | .error e log => .error (.log name e) (setLog log)

variable [ByteLog σ]

def ofLogs (rows text attributes : σ) : Archive σ where
  rows := ByteLog.reset rows 0
  text := ByteLog.reset text 0
  attributes := ByteLog.reset attributes 0

/--
Forget every frozen row. The next row that is frozen has the given index. Offsets in the text and
attribute logs go on where they are.
-/
def reset (archive : Archive σ) (index : Nat) : Archive σ where
  rows := ByteLog.reset archive.rows (RowEntry.offsetOf index)
  text := ByteLog.reset archive.text (ByteLog.head archive.text)
  attributes := ByteLog.reset archive.attributes (ByteLog.head archive.attributes)
  openRun := { start := ByteLog.head archive.text }

def advanceTails (archive : Archive σ) (index : Nat) (entry : RowEntry) : Archive σ where
  rows := ByteLog.advanceTail archive.rows (RowEntry.offsetOf index)
  text := ByteLog.advanceTail archive.text entry.textStart.toNat
  attributes := ByteLog.advanceTail archive.attributes entry.styleStart.toNat
  openRun := archive.openRun

def readEntry (index : Nat) : EStateM RingError (Archive σ) RowEntry := do
  let offset := RowEntry.offsetOf index
  let bytes ← onLog .row (ByteLog.read offset RowEntry.size)
  match RowEntry.decode? bytes.data.toList with
  | some entry => return entry
  | none => throw (.corrupt .row offset)

def readChange (offset : Nat) : EStateM RingError (Archive σ) StyleChange := do
  let bytes ← onLog .attribute (ByteLog.read offset StyleChange.size)
  match StyleChange.decode? bytes.data.toList with
  | some change => return change
  | none => throw (.corrupt .attribute offset)

def textEnd (index : Nat) : EStateM RingError (Archive σ) Nat := do
  let archive ← get
  if ByteLog.head archive.rows ≤ RowEntry.offsetOf (index + 1) then
    return ByteLog.head archive.text
  else
    let entry ← readEntry (index + 1)
    return entry.textStart.toNat

end Archive

end Scrollback
