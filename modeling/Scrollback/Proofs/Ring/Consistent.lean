import Scrollback.Proofs.Archive.Consistent
import Scrollback.Proofs.Log.Memory
import Scrollback.Proofs.Ring.Attainable

/-!
This module contains the proof that the logs of a ring agree with each other after every operation.
-/

namespace Scrollback

theorem Ring.Holds.exists_consistent {σ : Type} [ByteLog σ] [LawfulLog σ] {ring : Ring σ}
    {contents : RingContents} (h : ring.Holds contents) :
    ∃ entries changes,
      ring.archive.contents.Consistent ring.start ring.writable entries changes := by
  obtain ⟨changes, hholds⟩ := h.archive
  rw [h.start_eq, h.writable_eq, RingContents.writable]
  exact ⟨_, changes, hholds.consistent⟩

/--
After any operations, rewraps and failed ones included, the logs of a ring hold one entry for each
frozen row, the texts of these rows and the changes of style that the entries point at, and nothing
else.
-/
theorem Ring.consistent_of_attainable {σ : Type} [ByteLog σ] [LawfulLog σ] {ring : Ring σ}
    (hring : ring.Attainable Row.FlagsDefined) :
    ∃ entries changes,
      ring.archive.contents.Consistent ring.start ring.writable entries changes := by
  obtain ⟨list, ⟨contents, hholds, -⟩, -⟩ := hring.exists_shows fun _ hrow => hrow
  exact hholds.exists_consistent

/--
A ring of two rows that are split into three, of which the oldest goes.
-/
theorem Ring.consistent_of_attainable_rewrap :
    let ring := (ofLogs 2 1 default default default : Ring MemoryLog).after
      ([.call (.append { cells := Cell.glyph 'x' { columns := 2 } ++ Cell.glyph 'y' {} }),
        .call (.append { cells := Cell.glyph 'z' {} }), .rewrap 1 []] : List (Operation ByteArray))
    ∃ entries changes, ring.archive.contents.Consistent 1 3 entries changes := by
  intro ring
  have hring : ring.Attainable Row.FlagsDefined :=
    (Attainable.ofLogs 2 1 _ _ _).after (by decide) (by decide +kernel)
  have hconsistent := consistent_of_attainable hring
  rwa [show ring.start = 1 by decide +kernel, show ring.writable = 3 by decide +kernel]
    at hconsistent

end Scrollback
