import Scrollback.Proofs.Log.Memory
import Scrollback.Proofs.Ring.Attainable

/-!
This module contains the proof that what a ring stores for its rows is never found to be corrupt, as long
as their cells have no effects without a meaning. Effects without a meaning are stored as well, but they
cannot be read.
-/

namespace Scrollback

namespace Ring

/--
Whether an error is that an operation cannot be done, and not that of a log.
-/
inductive IsRefusal : RingError → Prop where
  | alloc (rows : Nat) : IsRefusal (.alloc rows)
  | sink (message : String) : IsRefusal (.sink message)
  | outside (use : IndexUse) (index start finish : Nat) :
    IsRefusal (.outside use index start finish)

theorem isRefusal_of_refusal {list : RowList} {c : Call} {e : RingError}
    (h : list.refusal c = some e) : IsRefusal e := by
  unfold RowList.refusal at h
  split at h
  all_goals first
    | contradiction
    | split at h
      · contradiction
      · obtain rfl := Option.some.inj h
        exact .outside _ _ _ _

variable {σ κ : Type} [ByteLog σ] [ReliableLog σ] [Sink κ] {ring : Ring σ}
  {room : EStateM RingError (Ring σ) Unit} {operation : Operation κ}

theorem IsInterruption.isRefusal {e : RingError} (h : IsInterruption σ e) : IsRefusal e := by
  rcases h with hfault | ⟨rows, rfl⟩
  · exact absurd hfault (Archive.not_isFault e)
  · exact .alloc rows

theorem Shows.ends_operateWith_isRefusal {list : RowList} (hroom : Grows room)
    (h : ring.Shows list) (hwrites : operation.Writes Row.FlagsDefined)
    (hrange : OperatesInRange room operation ring) :
    Ends (operateWith room operation) ring (fun _ _ => True) (fun e _ => IsRefusal e) := by
  cases operation with
  | call c =>
    rw [operateWith, ends_bind]
    apply (h.ends_callWith_or_refusal hroom.makesRoom hwrites).imp
    · exact fun _ _ _ => trivial
    · rintro e _ (⟨hrefusal, -⟩ | ⟨-, hfailure, -⟩)
      · exact isRefusal_of_refusal hrefusal
      · exact hfailure.isRefusal
  | rewrap columns markers =>
    rw [operateWith, ends_bind]
    apply (h.ends_rewrap_becomes hrange columns markers).imp
    · exact fun _ _ _ => trivial
    · exact fun e _ herr => absurd herr.1 (Archive.not_isFault e)
  | writeContents sink =>
    obtain ⟨contents, hholds, -⟩ := h
    rw [operateWith, ends_bind]
    apply (hholds.ends_writeTo (Sink.tracks_true κ) trivial).imp
    · exact fun _ _ _ => trivial
    · rintro e _ ⟨hfault | ⟨message, rfl, -⟩, -⟩
      · exact absurd hfault (Archive.not_isFault e)
      · exact .sink message

/--
If the logs do not fail, no operation finds them corrupt after any others whose rows have only effects
with a meaning. Rows of any other kind may have been written: cells of any width with any characters,
marks and colors, and fragments that belong to no glyph.
-/
theorem ne_corrupt_of_attainable (hring : ring.Attainable Row.FlagsDefined) (hroom : Grows room)
    (hwrites : operation.Writes Row.FlagsDefined) (hrange : OperatesInRange room operation ring)
    (name : LogName) (offset : Nat) :
    outcome (operateWith room operation) ring ≠ .error (.corrupt name offset) := by
  obtain ⟨list, hshows, -⟩ := hring.exists_shows fun _ hrow => hrow
  intro houtcome
  have hrefusal := (hshows.ends_operateWith_isRefusal hroom hwrites hrange).of_error
    (eq_error_of_outcome houtcome)
  cases hrefusal

/--
A row of nothing but a fragment and a control character without a width, which is frozen, split off and
read.
-/
theorem ne_corrupt_of_attainable_row :
    let odd : Row :=
      { cells := [{ char := '\n', fragment := true }, Cell.lead '\n' { columns := 0 }] }
    let ring := (ofLogs 3 1 default default default : Ring MemoryLog).after
      ([.call (.append odd), .call (.append Row.empty), .rewrap 1 []] : List (Operation ByteArray))
    ring.writable = 2
      ∧ outcome (operateWith ensureRoom (.call (.row 0) : Operation ByteArray)) ring
        ≠ .error (.corrupt .attribute 0) := by
  intro odd ring
  have hring : ring.Attainable Row.FlagsDefined :=
    (Attainable.ofLogs 3 1 _ _ _).after (by decide) (by decide +kernel)
  exact ⟨by decide +kernel,
    ne_corrupt_of_attainable hring grows_ensureRoom (by trivial) (by decide +kernel) .attribute 0⟩

/--
An effect without a meaning is stored when its row is frozen, and cannot be read after that. Neither
the row nor the one after it can be edited then, and the ring cannot be rewrapped.
-/
theorem corrupt_of_undefined_effect :
    let row (style : Style) : Row := { cells := [Cell.lead 'a' style] }
    let ring := (ofLogs 4 1 default default default : Ring MemoryLog).after
      ([.call (.append (row { flags := 0x8000 })), .call (.append (row {})),
        .call (.append (row {}))] : List (Operation ByteArray))
    ring.Attainable (fun _ => True) ∧ ring.start = 0 ∧ ring.finish = 3
      ∧ ∀ operation ∈ ([.call (.row 0), .call (.assign 0 (row {})), .call (.erase 1),
          .rewrap 1 []] : List (Operation ByteArray)),
        outcome (operate operation) ring = .error (.corrupt .attribute 0) := by
  intro row ring
  refine ⟨(Attainable.ofLogs 4 1 _ _ _).after (by simp [Operation.Writes, Call.Writes])
    (by decide +kernel), ?_, ?_, ?_⟩
  all_goals decide +kernel

end Ring

end Scrollback
