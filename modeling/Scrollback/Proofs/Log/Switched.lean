import Scrollback.Log.Switched
import Scrollback.Proofs.Log.Contents

/-!
This module contains the proof that a log with switches is lawful: what the switches make fail does
not change what it holds.
-/

namespace Scrollback

namespace SwitchedLog

variable {σ α : Type} {switch : SwitchedLog σ → Bool} {action : EStateM LogError σ α}

theorem ends_unlessOn {log : SwitchedLog σ} {ok : α → SwitchedLog σ → Prop}
    {err : LogError → SwitchedLog σ → Prop} (hinjected : err injected log)
    (h : Ends action log.log (fun a inner => ok a { log with log := inner })
      (fun e inner => err e { log with log := inner })) :
    Ends (unlessOn switch action) log ok err := by
  unfold Ends unlessOn
  cases switch log with
  | true => exact hinjected
  | false =>
    unfold Ends at h
    cases hrun : action log.log with
    | ok a inner => rwa [hrun] at h
    | error e inner => rwa [hrun] at h

instance [ByteLog σ] [LawfulLog σ] : LawfulLog (SwitchedLog σ) where
  contents log := LawfulLog.contents log.log
  Fault e := e = injected ∨ LawfulLog.Fault σ e
  tail_eq log := LawfulLog.tail_eq log.log
  head_eq log := LawfulLog.head_eq log.log
  contents_reset log := LawfulLog.contents_reset log.log
  contents_truncate log := LawfulLog.contents_truncate log.log
  contents_advanceTail log := LawfulLog.contents_advanceTail log.log
  append_law log bytes := by
    apply ends_unlessOn ⟨Or.inl rfl, rfl⟩
    apply (LawfulLog.append_law log.log bytes).imp
    · exact fun offset inner h => h
    · exact fun e inner h => ⟨Or.inr h.1, h.2⟩
  read_law log offset size htail hhead := by
    apply ends_unlessOn ⟨Or.inl rfl, rfl⟩
    apply (LawfulLog.read_law log.log offset size htail hhead).imp
    · exact fun bytes inner h => h
    · exact fun e inner h => ⟨Or.inr h.1, h.2⟩
  fresh_law log := by
    change Ends (unlessOn failFresh ByteLog.fresh >>= _) log _ _
    rw [ends_bind]
    apply ends_unlessOn ⟨Or.inl rfl, rfl⟩
    apply (LawfulLog.fresh_law log.log).imp
    · exact fun fresh inner h => h
    · exact fun e inner h => ⟨Or.inr h.1, h.2⟩

instance [ByteLog σ] [SteadyLog σ] : SteadyLog (SwitchedLog σ) where
  read_keeps log offset size := by
    apply ends_unlessOn rfl
    apply (SteadyLog.read_keeps log.log offset size).imp
    · exact fun bytes inner h => h
    · exact fun e inner h => h

end SwitchedLog

end Scrollback
