import Scrollback.Proofs.Ring.Shows
import Scrollback.Ring.Edit

/-!
This module contains the actions that make room in the window of a ring. A window is enlarged in
memory, of which there may be too little at any time.
-/

namespace Scrollback

namespace Ring

variable {σ α : Type}

/--
The action makes room in the window, except that it may fail at any time because there is no memory.
It does nothing then.
-/
def Grows (room : EStateM RingError (Ring σ) Unit) : Prop :=
  ∀ ring, room ring = ensureRoom ring ∨ ∃ rows, room ring = .error (.alloc rows) ring

theorem grows_ensureRoom : Grows (ensureRoom : EStateM RingError (Ring σ) Unit) :=
  fun _ => Or.inl rfl

theorem Grows.ends_frame {room : EStateM RingError (Ring σ) Unit} (h : Grows room) {ring : Ring σ} :
    Ends room ring (fun _ after => ∃ window, after = { ring with window })
      (fun _ after => after = ring) := by
  rcases h ring with heq | ⟨rows, heq⟩
  · rw [Ends, heq, ← Ends, ends_ensureRoom_iff]
    split
    · exact ⟨ring.window, rfl⟩
    · apply Window.ends_grow_capacity.imp
      · exact fun _ window _ => ⟨window, rfl⟩
      · rintro _ _ ⟨-, -, rfl⟩
        rfl
  · rw [Ends, heq]

variable [ByteLog σ] [LawfulLog σ]

/--
The action makes room for one more row in the window of a ring and does not change its rows. It may
fail as `Failure` says, which includes all failures of the logs.
-/
structure MakesRoom (room : EStateM RingError (Ring σ) Unit) (Failure : RingError → Prop) : Prop where
  of_isFault : ∀ e, Archive.IsFault σ e → Failure e
  ends : ∀ {ring : Ring σ} {contents : RingContents}, ring.Holds contents →
    Ends room ring
      (fun _ after => after.Holds contents ∧ contents.live.length < after.window.capacity)
      (fun e after => Failure e ∧ after.Holds contents)

theorem makesRoom_ensureRoom :
    MakesRoom (ensureRoom : EStateM RingError (Ring σ) Unit) (IsFailure σ) where
  of_isFault _ := Or.inl
  ends h := h.ends_ensureRoom

/--
Whether an error is that of a log or of memory, and not that of the one who called.
-/
def IsInterruption (σ : Type) [ByteLog σ] [LawfulLog σ] (e : RingError) : Prop :=
  Archive.IsFault σ e ∨ ∃ rows, e = .alloc rows

theorem Grows.makesRoom {room : EStateM RingError (Ring σ) Unit} (h : Grows room) :
    MakesRoom room (IsInterruption σ) where
  of_isFault _ := Or.inl
  ends := by
    intro ring contents hring
    rcases h ring with heq | ⟨rows, heq⟩
    · rw [Ends, heq]
      apply hring.ends_ensureRoom.imp
      · exact fun _ after hafter => hafter
      · rintro e after ⟨hfault | ⟨rows, rfl, -⟩, hafter⟩
        · exact ⟨Or.inl hfault, hafter⟩
        · exact ⟨Or.inr ⟨rows, rfl⟩, hafter⟩
    · rw [Ends, heq]
      exact ⟨Or.inr ⟨rows, rfl⟩, hring⟩

end Ring

end Scrollback
