import Scrollback.Proofs.Log.Memory
import Scrollback.Proofs.Ring.Call

/-!
This module contains the proof that a ring answers every sequence of calls as a plain list of rows
does.
-/

namespace Scrollback

namespace Ring

variable {σ : Type} [ByteLog σ]

def StaysInRange (ring : Ring σ) : List Call → Prop
  | [] => True
  | c :: calls =>
    Ends (call c) ring (fun _ after => after.archive.InRange ∧ after.StaysInRange calls)
      (fun _ _ => True)

def decideStaysInRange (ring : Ring σ) : (calls : List Call) → Decidable (ring.StaysInRange calls)
  | [] => isTrue trivial
  | c :: calls =>
    have (after : Ring σ) := decideStaysInRange after calls
    inferInstanceAs (Decidable (Ends (call c) ring
      (fun _ after => after.archive.InRange ∧ after.StaysInRange calls) (fun _ _ => True)))

instance (ring : Ring σ) (calls : List Call) : Decidable (ring.StaysInRange calls) :=
  ring.decideStaysInRange calls

end Ring

namespace RowList

def run (list : RowList) : List Call → RowList × List Answer
  | [] => (list, [])
  | c :: calls =>
    let (list, answer) := list.call c
    let (list, answers) := list.run calls
    (list, answer :: answers)

def AcceptsAll (list : RowList) : List Call → Prop
  | [] => True
  | c :: calls => c.Accepted list.start list.finish ∧ (list.call c).1.AcceptsAll calls

def decideAcceptsAll (list : RowList) : (calls : List Call) → Decidable (list.AcceptsAll calls)
  | [] => isTrue trivial
  | c :: calls =>
    have := decideAcceptsAll (list.call c).1 calls
    inferInstanceAs (Decidable (_ ∧ _))

instance (list : RowList) (calls : List Call) : Decidable (list.AcceptsAll calls) :=
  list.decideAcceptsAll calls
end RowList

namespace Ring.Shows

variable {σ : Type} [ByteLog σ] [LawfulLog σ] {ring : Ring σ} {list : RowList}

theorem ends_mapM_call (h : ring.Shows list) (hwellFormed : list.WellFormed) {calls : List Call}
    (hcalls : list.AcceptsAll calls) (hrange : ring.StaysInRange calls) :
    Ends (calls.mapM Ring.call) ring
      (fun answers after => answers = (list.run calls).2 ∧ after.Shows (list.run calls).1)
      (fun e _ => IsFailure σ e) := by
  -- The ring shows the list before and after each call, as long as the offsets are in range.
  induction calls generalizing ring list with
  | nil =>
    rw [List.mapM_nil, ends_pure]
    exact ⟨rfl, h⟩
  | cons c calls ih =>
    rw [List.mapM_cons, ends_bind]
    apply ((h.ends_call hwellFormed hcalls.1).and hrange).imp
    · rintro answer next ⟨hnext, hinRange, hrange⟩
      obtain ⟨rfl, hshows⟩ := hnext hinRange
      rw [ends_bind]
      apply (ih hshows (hwellFormed.call hcalls.1.writes) hcalls.2 hrange).imp
      · rintro _ after ⟨rfl, hafter⟩
        exact ⟨rfl, hafter⟩
      · exact fun e after herr => herr
    · exact fun e after herr => herr.1.1

end Ring.Shows

/--
A ring over logs that do not fail answers every sequence of calls as the plain list of rows does,
unless it would need a window of at least `2 ^ 58` rows.
-/
theorem Ring.run_eq_list {σ : Type} [ByteLog σ] [ReliableLog σ] (maxRows windowRows : Nat)
    (rows text attributes : σ) (calls : List Call)
    (hcalls : (RowList.ofMaxRows maxRows).AcceptsAll calls)
    (hrange : (ofLogs maxRows windowRows rows text attributes).StaysInRange calls) :
    (∃ after, calls.mapM call (ofLogs maxRows windowRows rows text attributes)
          = .ok ((RowList.ofMaxRows maxRows).run calls).2 after
        ∧ after.start = ((RowList.ofMaxRows maxRows).run calls).1.start
        ∧ after.finish = ((RowList.ofMaxRows maxRows).run calls).1.finish
        ∧ after.maxRows = ((RowList.ofMaxRows maxRows).run calls).1.maxRows)
      ∨ ∃ size after, calls.mapM call (ofLogs maxRows windowRows rows text attributes)
          = .error (.alloc size) after
        ∧ 2 ^ 58 ≤ size := by
  have hlist : (RowList.ofMaxRows maxRows).WellFormed := by
    simp [RowList.WellFormed, RowList.ofMaxRows]
  have hends := (Shows.ofLogs maxRows windowRows rows text attributes).ends_mapM_call hlist hcalls
    hrange
  rcases hends.exists_or_exists with ⟨_, after, hrun, rfl, hafter⟩ | ⟨e, after, hrun, herr⟩
  · exact Or.inl ⟨after, hrun, hafter.start_eq, hafter.finish_eq, hafter.maxRows_eq⟩
  · rcases herr with hfault | ⟨size, rfl, hsize⟩
    · exact absurd hfault (Archive.not_isFault e)
    · exact Or.inr ⟨size, after, hrun, hsize⟩

theorem Ring.run_eq_list_evict :
    ∃ after,
      [.append { cells := Cell.glyph 'x' { columns := 2 } }, .append Row.empty,
          .insert 1 { cells := Cell.glyph 'y' {}, softWrapped := true }, .row 1, .erase 1].mapM call
          (ofLogs 2 1 default default default : Ring MemoryLog)
        = .ok [.index 0, .index 1, .index 1,
          .row { cells := Cell.glyph 'y' {}, softWrapped := true },
          .row { cells := Cell.glyph 'y' {}, softWrapped := true }] after
        ∧ after.start = 1 ∧ after.finish = 2 := by
  rcases run_eq_list 2 1 (default : MemoryLog) default default
    [.append { cells := Cell.glyph 'x' { columns := 2 } }, .append Row.empty,
      .insert 1 { cells := Cell.glyph 'y' {}, softWrapped := true }, .row 1, .erase 1]
    (by decide) (by decide +kernel) with ⟨after, hrun, hstart, hfinish, -⟩ | ⟨_, _, hrun, -⟩
  · exact ⟨after, hrun, hstart, hfinish⟩
  · have hfails := congrArg (fun | .ok _ _ => true | .error _ _ => false) hrun
    change _ = false at hfails
    exact absurd hfails (by decide +kernel)

end Scrollback
