import Scrollback.Proofs.Ring.Contents
import Scrollback.Proofs.Ring.Rewrap

/-!
This module contains the rings that operations can lead to, those that failed included, and the proof
that every one of them is the ring of a list of rows.
-/

namespace Scrollback

def StyledLine.source (line : StyledLine) : Row where
  cells := line.chars.map fun (char, style) => Cell.lead char style
  softWrapped := line.softWrapped

theorem StyledLine.styled_source (line : StyledLine) : line.source.styled = line := by
  obtain ⟨chars, softWrapped⟩ := line
  have hchars : (source { chars, softWrapped }).leads.flatMap Cell.styled = chars := by
    induction chars with
    | nil => rfl
    | cons char chars ih => exact congrArg (char :: ·) ih
  rw [Row.styled, hchars]
  rfl

theorem RingContents.exists_shows (contents : RingContents) (hmaxRows : 0 < contents.maxRows) :
    ∃ list, contents.Shows list := by
  refine ⟨⟨contents.start, contents.frozen.map (·.line.source) ++ contents.live, contents.maxRows,
    hmaxRows⟩, rfl, rfl, ?_, ?_⟩
  · apply List.rel_append
    · rw [List.forall₂_map_left_iff, List.forall₂_map_right_iff, List.forall₂_same]
      intro frozen _
      right
      rw [← Row.toRow_styled, StyledLine.styled_source]
    · exact List.forall₂_same.mpr fun row _ => Row.ShownAs.refl row
  · intro k frozen row hfrozen hrow _
    rw [List.getElem?_append_left (by simpa using (List.getElem?_eq_some_iff.mp hfrozen).1),
      List.getElem?_map, hfrozen, Option.map_some, Option.some.injEq] at hrow
    rw [← hrow, StyledLine.styled_source]

namespace RowList

variable {κ : Type} {list after : RowList} {operation : Operation κ}

/--
What an operation may turn the list into. Rows that are not well-formed may be split in any way.
-/
def Becomes (list after : RowList) : Operation κ → Prop
  | .call c => after = (list.call c).1
  | .rewrap columns _ => list.WellFormed → after = list.rewrap columns
  | .writeContents _ => after = list

def AfterError (list after : RowList) : Operation κ → Prop
  | .call c => list.AfterFailure after c
  | .rewrap _ _ | .writeContents _ => after = list

theorem WellFormed.becomes (h : list.WellFormed) (hwrites : operation.Writes Row.Proper)
    (hafter : list.Becomes after operation) : after.WellFormed := by
  cases operation with
  | call c =>
    obtain rfl : after = (list.call c).1 := hafter
    exact h.call hwrites
  | rewrap columns markers =>
    obtain rfl := hafter h
    exact h.rewrap columns
  | writeContents sink =>
    obtain rfl : after = list := hafter
    exact h

theorem WellFormed.afterError (h : list.WellFormed) (hafter : list.AfterError after operation) :
    after.WellFormed := by
  cases operation with
  | call c => exact h.afterFailure hafter
  | _ =>
    obtain rfl : after = list := hafter
    exact h

end RowList

namespace Ring

variable {σ κ : Type} [ByteLog σ] [LawfulLog σ] [Sink κ] {ring : Ring σ} {list : RowList}
  {room : EStateM RingError (Ring σ) Unit} {operation : Operation κ} {operations : List (Operation κ)}

def OperatesInRange (room : EStateM RingError (Ring σ) Unit) (operation : Operation κ)
    (ring : Ring σ) : Prop :=
  match operation with
  | .call c => Ends (callWith room c) ring (fun _ after => after.archive.InRange) (fun _ _ => True)
  | .rewrap _ _ => ring.FreezesInRange
  | .writeContents _ => True

instance (room : EStateM RingError (Ring σ) Unit) (operation : Operation κ) (ring : Ring σ) :
    Decidable (OperatesInRange room operation ring) :=
  match operation with
  | .call c => inferInstanceAs (Decidable (Ends (callWith room c) ring _ _))
  | .rewrap _ _ => inferInstanceAs (Decidable ring.FreezesInRange)
  | .writeContents _ => isTrue trivial

def OperateInRange (ring : Ring σ) : List (Operation κ) → Prop
  | [] => True
  | operation :: operations =>
    OperatesInRange ensureRoom operation ring
      ∧ (final (operate operation) ring).OperateInRange operations

def decideOperateInRange (ring : Ring σ) :
    (operations : List (Operation κ)) → Decidable (ring.OperateInRange operations)
  | [] => isTrue trivial
  | operation :: operations =>
    have := (final (operate operation) ring).decideOperateInRange operations
    inferInstanceAs (Decidable (_ ∧ _))

instance (ring : Ring σ) (operations : List (Operation κ)) :
    Decidable (ring.OperateInRange operations) :=
  ring.decideOperateInRange operations

theorem Holds.exists_shows {contents : RingContents} (h : ring.Holds contents)
    (hmaxRows : 0 < contents.maxRows) : ∃ list, ring.Shows list := by
  obtain ⟨list, hlist⟩ := contents.exists_shows hmaxRows
  exact ⟨list, contents, h, hlist⟩

namespace Shows

theorem ends_rewrap_becomes (h : ring.Shows list) (hrange : ring.FreezesInRange) (columns : Nat)
    (markers : List Position) :
    Ends (rewrap columns markers) ring
      (fun _ after => ∃ list', (list.WellFormed → list' = list.rewrap columns) ∧ after.Shows list')
      (fun e after => Archive.IsFault σ e ∧ after.Shows list) := by
  by_cases hrows : list.rows = []
  · rw [Ends, h.rewrap_of_rows_eq_nil hrows]
    exact ⟨list, fun _ => (list.rewrap_of_rows_eq_nil hrows columns).symm, h⟩
  · by_cases hlist : list.WellFormed
    · apply (h.ends_rewrap hlist hrows hrange columns markers).imp
      · exact fun _ after hafter => ⟨_, fun _ => rfl, hafter.1⟩
      · exact fun e after herr => ⟨herr.1, herr.2.1⟩
    · apply (h.ends_rewrap_frozen hrows hrange columns markers).imp
      · rintro _ after ⟨_, _, _, -, -, -, -, new, -, hafter, -⟩
        obtain ⟨list', hlist'⟩ := hafter.exists_shows list.maxRows_pos
        exact ⟨list', fun hwellFormed => absurd hwellFormed hlist, hlist'⟩
      · exact fun e after herr => ⟨herr.1, herr.2.1⟩

theorem ends_operateWith (hroom : Grows room) (h : ring.Shows list)
    (hwrites : operation.Writes Row.FlagsDefined) (hrange : OperatesInRange room operation ring) :
    Ends (operateWith room operation) ring
      (fun _ after => ∃ list', list.Becomes list' operation ∧ after.Shows list')
      (fun _ after => ∃ list', list.AfterError list' operation ∧ after.Shows list') := by
  cases operation with
  | call c =>
    rw [operateWith, ends_bind]
    apply ((h.ends_callWith_or_refusal hroom.makesRoom hwrites).and hrange).imp
    · rintro answer after ⟨⟨-, hafter⟩, hrange⟩
      exact ⟨_, rfl, (hafter hrange).2⟩
    · rintro e after ⟨⟨hrefusal, rfl⟩ | ⟨-, -, hafter⟩, -⟩
      · exact ⟨list, RowList.afterFailure_of_refusal hrefusal, h⟩
      · exact hafter
  | rewrap columns markers =>
    rw [operateWith, ends_bind]
    apply (h.ends_rewrap_becomes hrange columns markers).imp
    · exact fun positions after hafter => hafter
    · exact fun e after herr => ⟨list, rfl, herr.2⟩
  | writeContents sink =>
    obtain ⟨contents, hholds, hcontents⟩ := h
    rw [operateWith, ends_bind]
    apply (hholds.ends_writeTo (Sink.tracks_true κ) trivial).imp
    · exact fun _ after hafter => ⟨list, rfl, contents, hafter.1, hcontents⟩
    · exact fun e after herr => ⟨list, rfl, contents, herr.2, hcontents⟩

end Shows

/--
The rings that come about from operations whose rows have a property, whether they succeed, fail or
are refused. Memory for the window may run out at any time, and what a log changes about itself
besides its contents may happen at any time.
-/
inductive Attainable (p : Row → Prop) : Ring σ → Prop where
  | ofLogs (maxRows windowRows : Nat) (rows text attributes : σ) :
    Attainable p (ofLogs maxRows windowRows rows text attributes)
  | operate {κ : Type} [Sink κ] {ring : Ring σ} {room : EStateM RingError (Ring σ) Unit}
      (operation : Operation κ) (h : Attainable p ring) (hroom : Grows room)
      (hwrites : operation.Writes p) (hrange : OperatesInRange room operation ring) :
    Attainable p (final (operateWith room operation) ring)
  | touch {ring : Ring σ} (h : Attainable p ring) {archive : Archive σ}
      (harchive : archive.contents = ring.archive.contents) :
    Attainable p { ring with archive }

theorem Attainable.after {p : Row → Prop} (h : ring.Attainable p)
    (hwrites : ∀ operation ∈ operations, operation.Writes p)
    (hrange : ring.OperateInRange operations) : (ring.after operations).Attainable p := by
  induction operations generalizing ring with
  | nil => exact h
  | cons operation operations ih =>
    rw [List.forall_mem_cons] at hwrites
    exact ih (h.operate operation grows_ensureRoom hwrites.1 hrange.1) hwrites.2 hrange.2

theorem Attainable.exists_shows {p : Row → Prop} (h : ring.Attainable p)
    (hp : ∀ row, p row → row.FlagsDefined) :
    ∃ list, ring.Shows list ∧ ((∀ row, p row → row.Proper) → list.WellFormed) := by
  -- An operation that fails leaves the ring with rows as well, though not always the ones from before.
  induction h with
  | ofLogs maxRows windowRows rows text attributes =>
    exact ⟨_, Shows.ofLogs maxRows windowRows rows text attributes,
      fun _ => RowList.wellFormed_ofMaxRows maxRows⟩
  | operate operation _ hroom hwrites hrange ih =>
    obtain ⟨list, hshows, hlist⟩ := ih
    apply Ends.final (p := fun after : Ring σ =>
      ∃ list, after.Shows list ∧ ((∀ row, p row → row.Proper) → list.WellFormed))
    apply (hshows.ends_operateWith hroom (hwrites.imp hp) hrange).imp
    · rintro _ after ⟨list', hbecomes, hafter⟩
      exact ⟨list', hafter, fun hproper => (hlist hproper).becomes (hwrites.imp hproper) hbecomes⟩
    · rintro _ after ⟨list', herror, hafter⟩
      exact ⟨list', hafter, fun hproper => (hlist hproper).afterError herror⟩
  | touch _ harchive ih =>
    obtain ⟨list, ⟨contents, hholds, hcontents⟩, hlist⟩ := ih
    exact ⟨list, ⟨contents, hholds.withArchive harchive, hcontents⟩, hlist⟩

end Ring

end Scrollback
