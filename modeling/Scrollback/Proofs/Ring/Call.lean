import Mathlib.Data.List.InsertIdx
import Scrollback.Proofs.Ring.Insert

/-!
This module contains the calls of a ring, what they do to a plain list of rows, and the proof that they
do the same to the ring.
-/

namespace Scrollback

def Row.Proper (row : Row) : Prop :=
  row.WellFormed ∧ row.FlagsDefined

instance : DecidablePred Row.Proper :=
  fun row => inferInstanceAs (Decidable (row.WellFormed ∧ row.FlagsDefined))

inductive Call where
  | append (row : Row)
  | insert (index : Nat) (row : Row)
  | assign (index : Nat) (row : Row)
  | row (index : Nat)
  | isSoftWrapped (index : Nat)
  | erase (index : Nat)
  | resize (maxRows : Nat)
  | shrink (rows : Nat)
  | dropScrollback (index : Nat)
  | clear
  | setVisibleRows (rows : Nat)
  deriving DecidableEq

namespace Call

def Accepted (start finish : Nat) : Call → Prop
  | .append new => new.WellFormed ∧ new.FlagsDefined
  | .insert index new => (start ≤ index ∧ index ≤ finish) ∧ new.WellFormed ∧ new.FlagsDefined
  | .assign index new => (start ≤ index ∧ index < finish) ∧ new.WellFormed ∧ new.FlagsDefined
  | .row index | .isSoftWrapped index | .erase index => start ≤ index ∧ index < finish
  | .dropScrollback index => start ≤ index ∧ index ≤ finish
  | .resize _ | .shrink _ | .clear | .setVisibleRows _ => True

instance (start finish : Nat) : (c : Call) → Decidable (c.Accepted start finish)
  | .append _ => inferInstanceAs (Decidable (_ ∧ _))
  | .insert _ _ => inferInstanceAs (Decidable (_ ∧ _ ∧ _))
  | .assign _ _ => inferInstanceAs (Decidable (_ ∧ _ ∧ _))
  | .row _ => inferInstanceAs (Decidable (_ ∧ _))
  | .isSoftWrapped _ => inferInstanceAs (Decidable (_ ∧ _))
  | .erase _ => inferInstanceAs (Decidable (_ ∧ _))
  | .dropScrollback _ => inferInstanceAs (Decidable (_ ∧ _))
  | .resize _ => isTrue trivial
  | .shrink _ => isTrue trivial
  | .clear => isTrue trivial
  | .setVisibleRows _ => isTrue trivial

def Writes (p : Row → Prop) : Call → Prop
  | .append new | .insert _ new | .assign _ new => p new
  | .row _ | .isSoftWrapped _ | .erase _ | .resize _ | .shrink _ | .dropScrollback _ | .clear
  | .setVisibleRows _ => True

instance (p : Row → Prop) [DecidablePred p] : (c : Call) → Decidable (c.Writes p)
  | .append new | .insert _ new | .assign _ new => inferInstanceAs (Decidable (p new))
  | .row _ | .isSoftWrapped _ | .erase _ | .resize _ | .shrink _ | .dropScrollback _ | .clear
  | .setVisibleRows _ => isTrue trivial

theorem Writes.imp {p q : Row → Prop} (h : ∀ row, p row → q row) {c : Call} (hc : c.Writes p) :
    c.Writes q := by
  cases c with
  | append row => exact h row hc
  | insert index row => exact h row hc
  | assign index row => exact h row hc
  | _ => trivial

theorem Accepted.writes {start finish : Nat} {c : Call} (h : c.Accepted start finish) :
    c.Writes Row.Proper := by
  cases c with
  | append new => exact h
  | insert index new => exact h.2
  | assign index new => exact h.2
  | _ => trivial

end Call

inductive Answer where
  | done
  | index (index : Nat)
  | row (row : Row)
  | softWrapped (softWrapped : Bool)
  deriving DecidableEq

inductive Answer.ShownAs : Answer → Answer → Prop where
  | refl (answer : Answer) : ShownAs answer answer
  | row {shown row : Row} (h : shown.ShownAs row) : ShownAs (.row shown) (.row row)

namespace Ring

variable {σ : Type} [ByteLog σ]

def put (index : Nat) (row : Row) : EStateM RingError (Ring σ) Unit :=
  modify fun ring => { ring with window := ring.window.set index row }

def callWith (room : EStateM RingError (Ring σ) Unit) : Call → EStateM RingError (Ring σ) Answer
  | .append row => do
    let index ← appendWith room
    put index row
    return .index index
  | .insert index row => do
    let index ← insertWith room index
    put index row
    return .index index
  | .assign index row => do
    assignWith room index row
    return .done
  | .row index => return .row (← Ring.row index)
  | .isSoftWrapped index => return .softWrapped (← isSoftWrapped index)
  | .erase index => return .row (← eraseWith room index)
  | .resize maxRows => do
    resize maxRows
    return .done
  | .shrink rows => do
    shrink rows
    return .done
  | .dropScrollback index => do
    dropScrollback index
    return .done
  | .clear => do
    modify clear
    return .done
  | .setVisibleRows rows => do
    modify (setVisibleRows rows)
    return .done

def call (c : Call) : EStateM RingError (Ring σ) Answer :=
  callWith ensureRoom c

end Ring

namespace RowList

def ofMaxRows (maxRows : Nat) : RowList where
  maxRows := max maxRows 1
  maxRows_pos := Nat.le_max_right maxRows 1

def row (list : RowList) (index : Nat) : Row :=
  list.rows[index - list.start]?.getD Row.empty

def call (list : RowList) : Call → RowList × Answer
  | .append row => (list.insert list.finish row, .index list.finish)
  | .insert index row => (list.insert index row, .index (max index list.evict.start))
  | .assign index row => (list.set (index - list.start) row, .done)
  | .row index => (list, .row (list.row index))
  | .isSoftWrapped index => (list, .softWrapped (list.row index).softWrapped)
  | .erase index => (list.eraseIdx (index - list.start), .row (list.row index))
  | .resize maxRows => (list.resize maxRows, .done)
  | .shrink rows => (list.take rows, .done)
  | .dropScrollback index => (list.drop (index - list.start), .done)
  | .clear => (list.clear, .done)
  | .setVisibleRows _ => (list, .done)

def refusal (list : RowList) : Call → Option RingError
  | .insert index _ =>
    if list.start ≤ index ∧ index ≤ list.finish then
      none
    else
      some (.outside .insert index list.start list.finish)
  | .assign index _ | .row index | .isSoftWrapped index | .erase index =>
    if list.start ≤ index ∧ index < list.finish then
      none
    else
      some (.outside .row index list.start list.finish)
  | .dropScrollback index =>
    if list.start ≤ index ∧ index ≤ list.finish then
      none
    else
      some (.outside .dropBefore index list.start list.finish)
  | .append _ | .resize _ | .shrink _ | .clear | .setVisibleRows _ => none

/--
What a failed insertion may leave: the list from before it, the list without the oldest row, which is
dropped only if there is no room for another one, or the list with an empty row.
-/
def AfterInsertion (list : RowList) (index : Nat) (after : RowList) : Prop :=
  after = list ∨ (list.maxRows ≤ list.rows.length ∧ after = list.drop 1)
    ∨ after = list.insert index Row.empty

def AfterFailure (list after : RowList) : Call → Prop
  | .append _ => list.AfterInsertion list.finish after
  | .insert index _ => list.AfterInsertion index after
  | .resize maxRows => after = list.withMaxRows maxRows
  | .assign _ _ | .row _ | .isSoftWrapped _ | .erase _ | .shrink _ | .dropScrollback _ | .clear
  | .setVisibleRows _ => after = list

theorem accepted_iff {list : RowList} {c : Call} :
    c.Accepted list.start list.finish
      ↔
    c.Writes Row.Proper ∧ list.refusal c = none := by
  cases c <;> simp [Call.Accepted, Call.Writes, Row.Proper, refusal, and_comm]

theorem afterFailure_of_refusal {list : RowList} {c : Call} {e : RingError}
    (h : list.refusal c = some e) : list.AfterFailure list c := by
  cases c with
  | insert index row => exact Or.inl rfl
  | append row => contradiction
  | resize maxRows => contradiction
  | _ => rfl

theorem wellFormed_ofMaxRows (maxRows : Nat) : (ofMaxRows maxRows).WellFormed :=
  fun _ hrow => nomatch hrow

namespace WellFormed

variable {list : RowList}

theorem drop (h : list.WellFormed) (count : Nat) : (list.drop count).WellFormed :=
  fun row hrow => h row (List.mem_of_mem_drop hrow)

theorem evict (h : list.WellFormed) : list.evict.WellFormed := by
  unfold RowList.evict
  split
  · exact h.drop 1
  · exact h

theorem insert (h : list.WellFormed) (index : Nat) {row : Row} (hrow : row.WellFormed) :
    (list.insert index row).WellFormed := by
  intro other hother
  rcases List.eq_or_mem_of_mem_insertIdx hother with rfl | hmem
  · exact hrow
  · exact h.evict other hmem

theorem call (h : list.WellFormed) {c : Call} (hc : c.Writes Row.Proper) :
    (list.call c).1.WellFormed := by
  cases c with
  | append row => exact h.insert _ hc.1
  | insert index row => exact h.insert index hc.1
  | assign index row =>
    intro other hother
    rcases List.mem_or_eq_of_mem_set hother with hmem | rfl
    · exact h other hmem
    · exact hc.1
  | row index => exact h
  | isSoftWrapped index => exact h
  | erase index => exact fun row hrow => h row (List.mem_of_mem_eraseIdx hrow)
  | resize maxRows => exact h.drop _
  | shrink rows => exact fun row hrow => h row (List.mem_of_mem_take hrow)
  | dropScrollback index => exact h.drop _
  | clear => exact h.drop _
  | setVisibleRows rows => exact h

theorem row (h : list.WellFormed) (index : Nat) : (list.row index).WellFormed := by
  unfold RowList.row
  cases hrow : list.rows[index - list.start]? with
  | none => exact Row.wellFormed_empty
  | some row => exact h row (List.mem_of_getElem? hrow)

theorem afterInsertion (h : list.WellFormed) {index : Nat} {after : RowList}
    (hafter : list.AfterInsertion index after) : after.WellFormed := by
  rcases hafter with rfl | ⟨-, rfl⟩ | rfl
  · exact h
  · exact h.drop 1
  · exact h.insert index Row.wellFormed_empty

theorem afterFailure (h : list.WellFormed) {c : Call} {after : RowList}
    (hafter : list.AfterFailure after c) : after.WellFormed := by
  cases c with
  | append row => exact h.afterInsertion hafter
  | insert index row => exact h.afterInsertion hafter
  | resize maxRows =>
    obtain rfl : after = list.withMaxRows maxRows := hafter
    exact h
  | _ =>
    obtain rfl : after = list := hafter
    exact h

end WellFormed

end RowList

theorem set_insertIdx {α : Type} {l : List α} {i : Nat} (h : i ≤ l.length) (a b : α) :
    (l.insertIdx i a).set i b = l.insertIdx i b := by
  have hlength : (l.take i).length = i := List.length_take_of_le h
  rw [insertIdx_eq_take_append h, insertIdx_eq_take_append h,
    List.set_append_right _ _ (Nat.le_of_eq hlength), hlength, Nat.sub_self, List.set_cons_zero]

theorem Answer.ShownAs.eq_call {list : RowList} (hlist : list.WellFormed) {c : Call} {answer : Answer}
    (h : answer.ShownAs (list.call c).2) : answer = (list.call c).2 := by
  generalize hcall : (list.call c).2 = expected at h
  cases h with
  | refl => rfl
  | @row shown row h =>
    have hrow : row.WellFormed := by
      cases c with
      | row index => exact Answer.row.inj hcall ▸ hlist.row index
      | erase index => exact Answer.row.inj hcall ▸ hlist.row index
      | _ => contradiction
    rw [h.eq_of_wellFormed hrow]

namespace Ring.Shows

variable {σ : Type} [ByteLog σ] [LawfulLog σ] {ring : Ring σ} {list : RowList}
  {room : EStateM RingError (Ring σ) Unit} {Failure : RingError → Prop}

theorem ends_put_insert {index place : Nat} {row : Row} (hindex : index ≤ list.finish)
    (hplace : place = max index list.evict.start)
    (h : ring.archive.InRange →
      ring.Shows (list.insert index Row.empty) ∧ ring.writable ≤ place)
    (hrow : row.FlagsDefined) {err : RingError → Ring σ → Prop} :
    Ends (put place row) ring
      (fun _ after => after.archive.InRange → after.Shows (list.insert index row)) err := by
  intro hrange
  obtain ⟨h, hwritable⟩ := h hrange
  have hle := RowList.sub_start_evict_le hindex
  have hslot : place = (list.insert index Row.empty).start + (index - list.evict.start) := by
    change place = list.evict.start + (index - list.evict.start)
    omega
  have hset := h.set (hslot ▸ hwritable) (by
    rw [RowList.insert, RowList.insertIdx, List.length_insertIdx_of_le_length hle]
    omega) hrow
  rw [← hslot] at hset
  have heq : (list.insert index Row.empty).set (index - list.evict.start) row
      = list.insert index row := by
    simp only [RowList.set, RowList.insert, RowList.insertIdx, set_insertIdx hle]
  rwa [heq] at hset

theorem afterInsertion_of_or {index : Nat} {after : Ring σ}
    (h : after.Shows list ∨ after.Shows list.evict ∨ after.Shows (list.insert index Row.empty)) :
    ∃ list', list.AfterInsertion index list' ∧ after.Shows list' := by
  rcases h with h | h | h
  · exact ⟨_, Or.inl rfl, h⟩
  · unfold RowList.evict at h
    split at h
    · next hfull => exact ⟨_, Or.inr (Or.inl ⟨hfull, rfl⟩), h⟩
    · exact ⟨_, Or.inl rfl, h⟩
  · exact ⟨_, Or.inr (Or.inr rfl), h⟩

theorem callWith_of_refusal (h : ring.Shows list) {c : Call} {e : RingError}
    (hc : list.refusal c = some e) : callWith room c ring = .error e ring := by
  suffices Ends (callWith room c) ring (fun _ _ => False) (fun e' after => e' = e ∧ after = ring) by
    rcases this.exists_or_exists with ⟨_, _, -, hfalse⟩ | ⟨_, _, hrun, rfl, rfl⟩
    · exact absurd hfalse id
    · exact hrun
  have houtside {p : Prop} [Decidable p] {e' : RingError}
      (hc : (if p then none else some e') = some e) : ¬ p ∧ e' = e := by
    split at hc
    · contradiction
    · next hp => exact ⟨hp, Option.some.inj hc⟩
  cases c with
  | insert index row =>
    obtain ⟨hindex, rfl⟩ := houtside hc
    unfold callWith insertWith
    rw [ends_bind, ends_bind, ends_requireBound, h.start_eq, h.finish_eq, if_neg hindex]
    exact ⟨rfl, rfl⟩
  | assign index row =>
    obtain ⟨hindex, rfl⟩ := houtside hc
    unfold callWith assignWith editWith
    rw [ends_bind, ends_bind, ends_requireRow, h.start_eq, h.finish_eq, if_neg hindex]
    exact ⟨rfl, rfl⟩
  | row index =>
    obtain ⟨hindex, rfl⟩ := houtside hc
    unfold callWith Ring.row
    rw [ends_bind, ends_bind, ends_requireRow, h.start_eq, h.finish_eq, if_neg hindex]
    exact ⟨rfl, rfl⟩
  | isSoftWrapped index =>
    obtain ⟨hindex, rfl⟩ := houtside hc
    unfold callWith Ring.isSoftWrapped
    rw [ends_bind, ends_bind, ends_requireRow, h.start_eq, h.finish_eq, if_neg hindex]
    exact ⟨rfl, rfl⟩
  | erase index =>
    obtain ⟨hindex, rfl⟩ := houtside hc
    unfold callWith eraseWith
    rw [ends_bind, ends_bind, ends_requireRow, h.start_eq, h.finish_eq, if_neg hindex]
    exact ⟨rfl, rfl⟩
  | dropScrollback index =>
    obtain ⟨hindex, rfl⟩ := houtside hc
    unfold callWith dropScrollback
    rw [ends_bind, ends_bind, ends_requireBound, h.start_eq, h.finish_eq, if_neg hindex]
    exact ⟨rfl, rfl⟩
  | _ => contradiction

theorem ends_callWith (hroom : MakesRoom room Failure) (h : ring.Shows list) {c : Call}
    (hc : c.Writes Row.FlagsDefined) (hrefusal : list.refusal c = none) :
    Ends (callWith room c) ring
      (fun answer after => after.archive.InRange →
        answer.ShownAs (list.call c).2 ∧ after.Shows (list.call c).1)
      (fun e after => Failure e ∧ ∃ list', list.AfterFailure list' c ∧ after.Shows list') := by
  have hrow {index : Nat} (hindex : list.start ≤ index ∧ index < list.finish) :
      list.start + (index - list.start) = index
        ∧ list.rows[index - list.start]? = some (list.row index) := by
    have hlt : index - list.start < list.rows.length := by
      rw [RowList.finish] at hindex
      omega
    rw [RowList.row, List.getElem?_eq_getElem hlt]
    exact ⟨by omega, rfl⟩
  have hsame {e : RingError} {after : Ring σ} (he : Archive.IsFault σ e) (hafter : after.Shows list) :
      Failure e ∧ ∃ list', list' = list ∧ after.Shows list' :=
    ⟨hroom.of_isFault e he, list, rfl, hafter⟩
  cases c with
  | append row =>
    rw [callWith, ends_bind]
    apply (h.ends_appendWith hroom).imp
    · rintro _ next ⟨rfl, hnext⟩
      have hplace := (Nat.max_eq_left list.start_evict_le_finish).symm
      rw [ends_bind]
      apply (ends_put_insert (Nat.le_refl _) hplace hnext hc).imp
      · exact fun _ after hafter hrange => ⟨.refl _, hafter hrange⟩
      · exact fun e after herr => herr
    · rintro e after ⟨he, hafter⟩
      exact ⟨he, afterInsertion_of_or hafter⟩
  | insert index row =>
    obtain ⟨hstart, hfinish⟩ : list.start ≤ index ∧ index ≤ list.finish := by
      simpa [RowList.refusal] using hrefusal
    rw [callWith, ends_bind]
    apply (h.ends_insertWith hroom hstart hfinish).imp
    · rintro _ next ⟨rfl, hnext⟩
      rw [ends_bind]
      apply (ends_put_insert hfinish rfl hnext hc).imp
      · exact fun _ after hafter hrange => ⟨.refl _, hafter hrange⟩
      · exact fun e after herr => herr
    · rintro e after ⟨he, hafter⟩
      exact ⟨he, afterInsertion_of_or hafter⟩
  | assign index row =>
    obtain ⟨heq, hget⟩ := hrow (by simpa [RowList.refusal] using hrefusal)
    rw [callWith, ends_bind, ← heq]
    apply (h.ends_assignWith hroom (List.getElem?_eq_some_iff.mp hget).1 hc).imp
    · intro _ after hafter _
      rw [heq]
      exact ⟨.refl _, hafter⟩
    · rintro e after ⟨he, hafter⟩
      exact ⟨he, list, rfl, hafter⟩
  | row index =>
    obtain ⟨heq, hget⟩ := hrow (by simpa [RowList.refusal] using hrefusal)
    rw [callWith, ends_bind, ← heq]
    apply (h.ends_row hget).imp
    · rintro shown after ⟨hshown, hafter⟩ _
      rw [heq]
      exact ⟨.row hshown, hafter⟩
    · rintro e after ⟨he, hafter⟩
      exact hsame he hafter
  | isSoftWrapped index =>
    obtain ⟨heq, hget⟩ := hrow (by simpa [RowList.refusal] using hrefusal)
    rw [callWith, ends_bind, ← heq]
    apply (h.ends_isSoftWrapped hget).imp
    · rintro _ after ⟨rfl, hafter⟩ _
      rw [heq]
      exact ⟨.refl _, hafter⟩
    · rintro e after ⟨he, hafter⟩
      exact hsame he hafter
  | erase index =>
    obtain ⟨heq, hget⟩ := hrow (by simpa [RowList.refusal] using hrefusal)
    rw [callWith, ends_bind, ← heq]
    apply (h.ends_eraseWith hroom hget).imp
    · rintro shown after ⟨hshown, hafter⟩ _
      rw [heq]
      exact ⟨.row hshown, hafter⟩
    · rintro e after ⟨he, hafter⟩
      exact ⟨he, list, rfl, hafter⟩
  | resize maxRows =>
    rw [callWith, ends_bind]
    apply (h.ends_resize maxRows).imp
    · exact fun _ after hafter _ => ⟨.refl _, hafter⟩
    · rintro e after ⟨he, hafter⟩
      exact ⟨hroom.of_isFault e he, _, rfl, hafter⟩
  | shrink rows =>
    rw [callWith, ends_bind]
    apply (h.ends_shrink rows).imp
    · exact fun _ after hafter _ => ⟨.refl _, hafter⟩
    · rintro e after ⟨he, hafter⟩
      exact hsame he hafter
  | dropScrollback index =>
    obtain ⟨hstart, hfinish⟩ : list.start ≤ index ∧ index ≤ list.finish := by
      simpa [RowList.refusal] using hrefusal
    obtain ⟨count, rfl⟩ := Nat.exists_eq_add_of_le hstart
    have hcount : count ≤ list.rows.length := by
      rw [RowList.finish] at hfinish
      omega
    rw [callWith, ends_bind]
    apply (h.ends_dropScrollback hcount).imp
    · intro _ after hafter _
      rw [RowList.call, Nat.add_sub_cancel_left]
      exact ⟨.refl _, hafter⟩
    · rintro e after ⟨he, hafter⟩
      exact hsame he hafter
  | clear =>
    rw [callWith, ends_bind, ends_modify, ends_pure]
    exact fun _ => ⟨.refl _, h.clear⟩
  | setVisibleRows rows =>
    rw [callWith, ends_bind, ends_modify, ends_pure]
    exact fun _ => ⟨.refl _, h.setVisibleRows rows⟩

theorem ends_callWith_or_refusal (hroom : MakesRoom room Failure) (h : ring.Shows list) {c : Call}
    (hc : c.Writes Row.FlagsDefined) :
    Ends (callWith room c) ring
      (fun answer after => list.refusal c = none ∧ (after.archive.InRange →
        answer.ShownAs (list.call c).2 ∧ after.Shows (list.call c).1))
      (fun e after => (list.refusal c = some e ∧ after = ring)
        ∨ (list.refusal c = none ∧ Failure e
          ∧ ∃ list', list.AfterFailure list' c ∧ after.Shows list')) := by
  cases hrefusal : list.refusal c with
  | some e =>
    rw [Ends, h.callWith_of_refusal hrefusal]
    exact Or.inl ⟨rfl, rfl⟩
  | none =>
    apply (h.ends_callWith hroom hc hrefusal).imp
    · exact fun answer after hafter => ⟨rfl, hafter⟩
    · exact fun e after herr => Or.inr ⟨rfl, herr⟩

theorem ends_call (h : ring.Shows list) (hwellFormed : list.WellFormed) {c : Call}
    (hc : c.Accepted list.start list.finish) :
    Ends (Ring.call c) ring
      (fun answer after => after.archive.InRange →
        answer = (list.call c).2 ∧ after.Shows (list.call c).1)
      (fun e after => IsFailure σ e ∧ ∃ list : RowList, list.WellFormed ∧ after.Shows list) := by
  obtain ⟨hwrites, hrefusal⟩ := RowList.accepted_iff.mp hc
  apply (h.ends_callWith makesRoom_ensureRoom (hwrites.imp fun _ h => h.2) hrefusal).imp
  · intro answer after hafter hrange
    obtain ⟨hanswer, hafter⟩ := hafter hrange
    exact ⟨hanswer.eq_call hwellFormed, hafter⟩
  · rintro e after ⟨he, list', hlist', hafter⟩
    exact ⟨he, list', hwellFormed.afterFailure hlist', hafter⟩

theorem ofLogs (maxRows windowRows : Nat) (rows text attributes : σ) :
    (Ring.ofLogs maxRows windowRows rows text attributes).Shows (RowList.ofMaxRows maxRows) := by
  refine ⟨{ start := 0, maxRows := max maxRows 1, frozen := [], live := [] }, ?_, rfl, rfl,
    List.Forall₂.nil, fun _ _ _ hfrozen => nomatch hfrozen⟩
  constructor
  · rfl
  · rfl
  · rfl
  · rfl
  · refine ⟨[], ?_⟩
    rw [Ring.ofLogs, Archive.contents_ofLogs]
    exact ArchiveContents.Holds.none 0 0 0
  · exact Window.Shows.nil
  · exact fun _ _ hcache => nomatch hcache
  · simp

end Ring.Shows

end Scrollback
