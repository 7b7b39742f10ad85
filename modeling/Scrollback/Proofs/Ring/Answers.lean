import Scrollback.Proofs.Ring.Markers

/-!
This module contains what a plain list of rows answers to operations, those that are refused included,
and the proof that a ring over logs that do not fail answers the same.
-/

namespace Scrollback

namespace RowList

def moveMarkers (list : RowList) (columns : Nat) (markers : List Position) : List Position :=
  if list.rows = [] then
    markers
  else
    markers.map (Position.rewrap64 list.rows list.start list.maxRows columns)

def operate (list : RowList) :
    Operation ByteArray → RowList × Except RingError (Reply ByteArray)
  | .call c =>
    match list.refusal c with
    | some e => (list, .error e)
    | none => ((list.call c).1, .ok (.answer (list.call c).2))
  | .rewrap columns markers =>
    (list.rewrap columns, .ok (.positions (list.moveMarkers columns markers)))
  | .writeContents sink =>
    (list, .ok (.written (sink ++ (String.ofList (list.rows.flatMap Row.line)).toUTF8)))

def results (list : RowList) :
    List (Operation ByteArray) → List (Except RingError (Reply ByteArray))
  | [] => []
  | operation :: operations =>
    (list.operate operation).2 :: (list.operate operation).1.results operations

theorem WellFormed.operate {list : RowList} (h : list.WellFormed) {operation : Operation ByteArray}
    (hwrites : operation.Writes Row.Proper) : (list.operate operation).1.WellFormed := by
  cases operation with
  | call c =>
    unfold RowList.operate
    dsimp only
    split
    · exact h
    · exact h.call hwrites
  | rewrap columns markers => exact h.rewrap columns
  | writeContents sink => exact h

end RowList

namespace Ring

def results {σ κ : Type} [ByteLog σ] [Sink κ] (ring : Ring σ) :
    List (Operation κ) → List (Except RingError (Reply κ))
  | [] => []
  | operation :: operations =>
    outcome (operate operation) ring :: (final (operate operation) ring).results operations

namespace Shows

theorem ends_rewrap_moveMarkers {σ : Type} [ByteLog σ] [LawfulLog σ] {ring : Ring σ}
    {list : RowList} (h : ring.Shows list) (hlist : list.WellFormed) (hrange : ring.FreezesInRange)
    (columns : Nat) (markers : List Position) :
    Ends (rewrap columns markers) ring
      (fun positions after => positions = list.moveMarkers columns markers
        ∧ after.Shows (list.rewrap columns))
      (fun e after => Archive.IsFault σ e ∧ after.Shows list
        ∧ after.frozenContents = ring.frozenContents) := by
  by_cases hrows : list.rows = []
  · rw [Ends, h.rewrap_of_rows_eq_nil hrows, list.rewrap_of_rows_eq_nil hrows, RowList.moveMarkers,
      if_pos hrows]
    exact ⟨rfl, h⟩
  · apply (h.ends_rewrap hlist hrows hrange columns markers).imp
    · rintro _ after ⟨hafter, -, -, frozen, contents, changes, hholds, hinRange, hlines, rfl⟩
      rw [hholds.positions_eq hinRange hlist hlines hrows, RowList.moveMarkers, if_neg hrows]
      exact ⟨rfl, hafter⟩
    · exact fun e after herr => herr

variable {σ : Type} [ByteLog σ] [ReliableLog σ] {ring : Ring σ} {list : RowList}

theorem ends_operate (h : ring.Shows list) (hlist : list.WellFormed)
    {operation : Operation ByteArray} (hwrites : operation.Writes Row.Proper)
    (hrange : OperatesInRange ensureRoom operation ring) :
    Ends (operate operation) ring
      (fun reply after => (list.operate operation).2 = .ok reply
        ∧ after.Shows (list.operate operation).1)
      (fun e after => ((list.operate operation).2 = .error e
          ∧ after.Shows (list.operate operation).1)
        ∨ ∃ rows, e = .alloc rows ∧ 2 ^ 58 ≤ rows) := by
  cases operation with
  | call c =>
    have hflags : c.Writes Row.FlagsDefined := Call.Writes.imp (fun _ hrow => hrow.2) hwrites
    rw [operate, operateWith, ends_bind]
    unfold RowList.operate
    dsimp only
    apply ((h.ends_callWith_or_refusal makesRoom_ensureRoom hflags).and hrange).imp
    · rintro answer after ⟨⟨hrefusal, hafter⟩, hrange⟩
      obtain ⟨hanswer, hafter⟩ := hafter hrange
      rw [hrefusal, hanswer.eq_call hlist]
      exact ⟨rfl, hafter⟩
    · rintro e after ⟨⟨hrefusal, rfl⟩ | ⟨-, hfault | halloc, -⟩, -⟩
      · rw [hrefusal]
        exact Or.inl ⟨rfl, h⟩
      · exact absurd hfault (Archive.not_isFault e)
      · exact Or.inr halloc
  | rewrap columns markers =>
    rw [operate, operateWith, ends_bind]
    apply (h.ends_rewrap_moveMarkers hlist hrange columns markers).imp
    · rintro _ after ⟨rfl, hafter⟩
      exact ⟨rfl, hafter⟩
    · exact fun e after herr => absurd herr.1 (Archive.not_isFault e)
  | writeContents sink =>
    rw [operate, operateWith, ends_bind]
    apply (h.ends_writeTo hlist (Sink.tracks_appended sink) (List.append_nil _).symm).imp
    · rintro written after ⟨hafter, hwritten⟩
      rw [hwritten.eq_append]
      exact ⟨rfl, hafter⟩
    · rintro e after ⟨hfault | ⟨_, _, hfalse⟩, -⟩
      · exact absurd hfault (Archive.not_isFault e)
      · exact absurd hfalse id

end Shows

end Ring

end Scrollback
