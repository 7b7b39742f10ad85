import Scrollback.Proofs.Log.Memory
import Scrollback.Proofs.Ring.Attainable

/-!
This module contains the rings that calls can lead to, and the proof that rewrapping such a ring does
to its rows what splitting its paragraphs does.
-/

namespace Scrollback

namespace Ring

variable {σ : Type} [ByteLog σ]

def ReadsAs (ring : Ring σ) (rows : List Row) : Prop :=
  (List.range' ring.start ring.size).map (fun index => (Ring.row index).run' ring) = rows.map some
    ∧ (List.range' ring.start ring.size).map (fun index => (isSoftWrapped index).run' ring)
      = rows.map (some ·.softWrapped)

instance (ring : Ring σ) (rows : List Row) : Decidable (ring.ReadsAs rows) :=
  inferInstanceAs (Decidable (_ ∧ _))

theorem ReadsAs.eq {ring : Ring σ} {rows rows' : List Row} (h : ring.ReadsAs rows)
    (h' : ring.ReadsAs rows') : rows = rows' := by
  have heq := h.1.symm.trans h'.1
  exact (List.map_inj_right fun _ _ => Option.some.inj).mp heq

variable [LawfulLog σ]

/--
The rings that come about from calls with well-formed rows, whether they succeed or fail. An edit of
a row is a row that is assigned. What a log changes about itself besides its contents may happen at
any time.
-/
inductive Reachable : Ring σ → Prop where
  | ofLogs (maxRows windowRows : Nat) (rows text attributes : σ) :
    Reachable (ofLogs maxRows windowRows rows text attributes)
  | call {ring : Ring σ} (c : Call) (h : Reachable ring) (hc : c.Accepted ring.start ring.finish)
      (hrange : Ends (call c) ring (fun _ after => after.archive.InRange) (fun _ _ => True)) :
    Reachable (final (call c) ring)
  | rewrap {ring : Ring σ} (columns : Nat) (markers : List Position) (h : Reachable ring)
      (hrange : ring.FreezesInRange) :
    Reachable (final (rewrap columns markers) ring)
  | touch {ring : Ring σ} (h : Reachable ring) {archive : Archive σ}
      (harchive : archive.contents = ring.archive.contents) :
    Reachable { ring with archive }

theorem Reachable.attainable {ring : Ring σ} (h : ring.Reachable) : ring.Attainable Row.Proper := by
  induction h with
  | ofLogs maxRows windowRows rows text attributes =>
    exact .ofLogs maxRows windowRows rows text attributes
  | call c _ hc hrange ih =>
    rw [← final_bind_pure _ (Reply.answer (κ := ByteArray))]
    exact .operate (.call c) ih grows_ensureRoom hc.writes hrange
  | rewrap columns markers _ hrange ih =>
    rw [← final_bind_pure _ (Reply.positions (κ := ByteArray))]
    exact .operate (.rewrap columns markers) ih grows_ensureRoom trivial hrange
  | touch _ harchive ih => exact ih.touch harchive

theorem Reachable.exists_shows {ring : Ring σ} (h : ring.Reachable) :
    ∃ list : RowList, list.WellFormed ∧ ring.Shows list := by
  obtain ⟨list, hshows, hlist⟩ := h.attainable.exists_shows fun _ hrow => hrow.2
  exact ⟨list, hlist fun _ hrow => hrow, hshows⟩

theorem Shows.readsAs {σ : Type} [ByteLog σ] [ReliableLog σ] {ring : Ring σ} {list : RowList}
    (h : ring.Shows list) (hlist : list.WellFormed) : ring.ReadsAs list.rows := by
  have hlt {k : Nat} (hk : k < (list.rows.map some).length) : k < list.rows.length := by
    rwa [List.length_map] at hk
  unfold ReadsAs
  rw [h.start_eq, h.size_eq]
  constructor
  · apply List.ext_getElem
    · simp
    · intro k _ hk
      have hrow := hlist _ (List.getElem_mem (hlt (by simpa using hk)))
      rw [List.getElem_map, List.getElem_map, List.getElem_range', Nat.one_mul]
      apply Ends.run'_eq
      · apply (h.ends_row (List.getElem?_eq_getElem (hlt (by simpa using hk)))).imp
        · exact fun shown after hshown => hshown.1.eq_of_wellFormed hrow
        · exact fun e after he => he
      · exact fun e after he => Archive.not_isFault e he.1
  · apply List.ext_getElem
    · simp
    · intro k _ hk
      rw [List.getElem_map, List.getElem_map, List.getElem_range', Nat.one_mul]
      apply Ends.run'_eq
      · apply (h.ends_isSoftWrapped (List.getElem?_eq_getElem (hlt (by simpa using hk)))).imp
        · exact fun softWrapped after hsoft => hsoft.1
        · exact fun e after he => he
      · exact fun e after he => Archive.not_isFault e he.1

end Ring

end Scrollback
