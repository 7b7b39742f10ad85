import Scrollback.Proofs.Archive.Freeze
import Scrollback.Proofs.Invariant
import Scrollback.Proofs.Log.Memory
import Scrollback.Proofs.Log.Switched
import Scrollback.Archive.Thaw

/-!
This module contains the proof that freezing, thawing and cutting off rows are atomic: if one of them
fails, the logs hold what they held before, and the open run is the same. That goes for any archive,
also one whose entries cannot be decoded.
-/

namespace Scrollback

namespace Archive

variable {σ α β : Type} [ByteLog σ] [SteadyLog σ]

def OnlyReads (action : EStateM RingError (Archive σ) α) : Prop :=
  ∀ contents, Keeps (fun archive : Archive σ => archive.contents = contents) action

theorem OnlyReads.ends {action : EStateM RingError (Archive σ) α} (h : OnlyReads action)
    (archive : Archive σ) :
    Ends action archive (fun _ after => after.contents = archive.contents)
      (fun _ after => after.contents = archive.contents) :=
  h archive.contents archive rfl

theorem onlyReads_onLog (name : LogName) (offset size : Nat) :
    OnlyReads (σ := σ) (onLog name (ByteLog.read offset size)) := by
  rintro _ archive rfl
  rw [ends_onLog]
  apply (SteadyLog.read_keeps (archive.log name) offset size).imp
  all_goals
    intro _ after hafter
    exact contents_setLog archive hafter

theorem onlyReads_readEntry (index : Nat) : OnlyReads (σ := σ) (readEntry index) := by
  intro contents
  apply (onlyReads_onLog _ _ _ contents).bind
  intro bytes
  split
  · exact .pure _
  · exact .throw _

theorem onlyReads_readChange (offset : Nat) : OnlyReads (σ := σ) (readChange offset) := by
  intro contents
  apply (onlyReads_onLog _ _ _ contents).bind
  intro bytes
  split
  · exact .pure _
  · exact .throw _

theorem onlyReads_textEnd (index : Nat) : OnlyReads (σ := σ) (textEnd index) := by
  intro contents
  apply Keeps.get_bind
  intro archive _
  split
  · exact .pure _
  · exact (onlyReads_readEntry _ contents).bind fun entry => .pure _

theorem onlyReads_runAt (head : Nat) (reader : RunReader) (offset : Nat) :
    OnlyReads (σ := σ) (runAt head reader offset) := by
  intro contents
  unfold runAt
  split
  · exact .pure _
  · split
    · exact .pure _
    · split
      · exact .throw _
      · apply (onlyReads_readChange _ contents).bind
        exact fun change => onlyReads_runAt head _ offset contents
termination_by head - reader.next
decreasing_by
  simp only [StyleChange.size]
  omega

theorem onlyReads_readGlyphs (head : Nat) (reader : RunReader) (offset : Nat) (row : Row)
    (chars : List Char) : OnlyReads (σ := σ) (readGlyphs head reader offset row chars) := by
  intro contents
  induction chars generalizing reader offset row with
  | nil => exact .pure _
  | cons char chars ih =>
    apply (onlyReads_runAt head reader offset contents).bind
    exact fun result => ih _ _ _

theorem onlyReads_rowAt (entry : RowEntry) (size : Nat) :
    OnlyReads (σ := σ) (do
      let bytes ← onLog .text (ByteLog.read entry.textStart.toNat size)
      match rowText? bytes entry.softWrapped with
      | none => throw (.corrupt .text entry.textStart.toNat)
      | some chars =>
        let archive ← get
        let reader : RunReader := { next := entry.styleStart.toNat, openRun := archive.openRun }
        let row ← readGlyphs (ByteLog.head archive.attributes) reader entry.textStart.toNat
          { softWrapped := entry.softWrapped } chars
        return (entry, row)) := by
  intro contents
  apply (onlyReads_onLog _ _ _ contents).bind
  intro bytes
  split
  · exact .throw _
  · apply Keeps.get_bind
    intro archive _
    exact (onlyReads_readGlyphs _ _ _ _ _ contents).bind fun row => .pure _

theorem onlyReads_read (index : Nat) : OnlyReads (σ := σ) (read index) := by
  intro contents
  apply (onlyReads_readEntry index contents).bind
  intro entry
  apply (onlyReads_textEnd index contents).bind
  intro finish
  have hrow := onlyReads_rowAt (σ := σ) entry (finish - entry.textStart.toNat) contents
  dsimp only
  split
  · exact (Keeps.throw _).bind fun _ => hrow
  · exact hrow

theorem onlyReads_reopenedRun (head cut entry start : Nat) :
    OnlyReads (σ := σ) (reopenedRun head cut entry start) := by
  intro contents
  unfold reopenedRun
  split
  · apply (onlyReads_readChange _ contents).bind
    intro change
    split
    · exact .pure _
    · exact onlyReads_reopenedRun head cut _ _ contents
  · exact .pure _
termination_by head - entry
decreasing_by
  simp only [StyleChange.size]
  omega

def Atomic (action : EStateM RingError (Archive σ) α) : Prop :=
  ∀ archive, Ends action archive (fun _ _ => True)
    (fun _ after => after.contents = archive.contents)

theorem Atomic.modify (f : Archive σ → Archive σ) : Atomic (modify f) :=
  fun _ => trivial

theorem Atomic.bind_pure {action : EStateM RingError (Archive σ) α} (h : Atomic action) (a : β) :
    Atomic (action >>= fun _ => Pure.pure a) :=
  fun archive => (h archive).bind fun _ _ _ => trivial

theorem OnlyReads.bind_atomic {action : EStateM RingError (Archive σ) α}
    {f : α → EStateM RingError (Archive σ) β} (haction : OnlyReads action)
    (hf : ∀ a, Atomic (f a)) : Atomic (action >>= f) := by
  intro archive
  rw [ends_bind]
  apply (haction.ends archive).imp
  · intro a next hnext
    apply (hf a next).imp
    · exact fun b after _ => trivial
    · exact fun e after hafter => hafter.trans hnext
  · exact fun e after hafter => hafter

theorem onlyReads_get : OnlyReads (σ := σ) get :=
  fun _ _ h => h

/--
What decides on the cut is read before anything is cut off.
-/
theorem atomic_rewind (index : Nat) (entry : RowEntry) : Atomic (σ := σ) (rewind index entry) := by
  have hcut (head first start : Nat) :=
    (onlyReads_reopenedRun (σ := σ) head entry.textStart.toNat first start).bind_atomic
      fun result => Atomic.modify fun archive => {
        rows := ByteLog.truncate archive.rows (RowEntry.offsetOf index)
        text := ByteLog.truncate archive.text entry.textStart.toNat
        attributes := ByteLog.truncate archive.attributes result.1
        openRun := result.2.getD archive.openRun }
  apply onlyReads_get.bind_atomic
  intro archive
  dsimp only
  split
  · apply (onlyReads_readChange _).bind_atomic
    exact fun change => hcut _ _ _
  · exact hcut _ _ _

theorem atomic_thaw (index : Nat) : Atomic (σ := σ) (thaw index) := by
  apply (onlyReads_read index).bind_atomic
  exact fun (entry, row) => (atomic_rewind index entry).bind_pure row

theorem atomic_truncate (index : Nat) : Atomic (σ := σ) (truncate index) := by
  apply (onlyReads_readEntry index).bind_atomic
  exact fun entry => atomic_rewind index entry

theorem atomic_freeze (row : Row) : Atomic (σ := σ) (freeze row) := by
  intro archive
  apply (ends_freeze archive row).imp
  · exact fun _ after _ => trivial
  · exact fun e after hafter => hafter.2

/--
Freezing, thawing or cutting off rows leaves every log, and the open run, exactly as it was before if
it fails, whichever log or entry is the reason.
-/
theorem contents_eq_of_error {σ : Type} [ByteLog σ] [SteadyLog σ] (archive : Archive σ) :
    (∀ row e after, freeze row archive = .error e after → after.contents = archive.contents)
      ∧ (∀ index e after, thaw index archive = .error e after → after.contents = archive.contents)
      ∧ (∀ index e after, truncate index archive = .error e after →
        after.contents = archive.contents) :=
  ⟨fun row _ _ h => (atomic_freeze row archive).of_error h,
    fun index _ _ h => (atomic_thaw index archive).of_error h,
    fun index _ _ h => (atomic_truncate index archive).of_error h⟩

/--
A row that is not frozen because the row log is full, one that is not thawed because its style means
nothing, and one that is not cut off because its style cannot be read.
-/
theorem contents_eq_of_error_switched :
    let row : Row := { cells := [Cell.lead 'a' { flags := 0x8000 }, Cell.lead 'b' {}] }
    let full : Archive (SwitchedLog MemoryLog) :=
      ofLogs { log := default, failAppends := true } { log := default } { log := default }
    let frozen : Archive (SwitchedLog MemoryLog) :=
      final (freeze row) (ofLogs { log := default } { log := default } { log := default })
    let silent := { frozen with attributes := { frozen.attributes with failReads := true } }
    (∃ after, freeze row full = .error (.log .row SwitchedLog.injected) after
        ∧ after.contents = full.contents)
      ∧ (∃ after, thaw 0 frozen = .error (.corrupt .attribute 0) after
        ∧ after.contents = frozen.contents)
      ∧ (∃ after, truncate 0 silent = .error (.log .attribute SwitchedLog.injected) after
        ∧ after.contents = silent.contents) := by
  intro row full frozen silent
  have hfreeze : freeze row full = .error (.log .row SwitchedLog.injected) (final (freeze row) full) :=
    eq_error_of_outcome (by decide +kernel)
  have hthaw : thaw 0 frozen = .error (.corrupt .attribute 0) (final (thaw 0) frozen) :=
    eq_error_of_outcome (by decide +kernel)
  have htruncate : truncate 0 silent
      = .error (.log .attribute SwitchedLog.injected) (final (truncate 0) silent) :=
    eq_error_of_outcome (by decide +kernel)
  exact ⟨⟨_, hfreeze, (contents_eq_of_error full).1 _ _ _ hfreeze⟩,
    ⟨_, hthaw, (contents_eq_of_error frozen).2.1 _ _ _ hthaw⟩,
    ⟨_, htruncate, (contents_eq_of_error silent).2.2 _ _ _ htruncate⟩⟩

end Archive

end Scrollback
