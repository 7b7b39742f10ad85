import Scrollback.Proofs.Log.Switched
import Scrollback.Proofs.Ring.Answers

/-!
This module contains the proof that failures do no harm: what an operation leaves when a log fails is
the ring of a list of rows, and it goes on as that once the logs work again.
-/

namespace Scrollback

def Archive.unswitched {σ : Type} (archive : Archive (SwitchedLog σ)) : Archive σ where
  rows := archive.rows.log
  text := archive.text.log
  attributes := archive.attributes.log
  openRun := archive.openRun

theorem Archive.contents_unswitched {σ : Type} [ByteLog σ] [LawfulLog σ]
    (archive : Archive (SwitchedLog σ)) : archive.unswitched.contents = archive.contents := by
  rfl

namespace Ring

variable {σ τ : Type}

/--
The ring with its rows in another archive. If that holds the same in logs that do not fail, it is the
ring once its logs work again.
-/
def movedTo (ring : Ring σ) (archive : Archive τ) : Ring τ where
  start := ring.start
  writable := ring.writable
  finish := ring.finish
  maxRows := ring.maxRows
  window := ring.window
  archive
  cache := ring.cache
  visibleRows := ring.visibleRows

structure Presents [ByteLog σ] (ring : Ring σ) (list : RowList) : Prop where
  start_eq : ring.start = list.start
  finish_eq : ring.finish = list.finish
  maxRows_eq : ring.maxRows = list.maxRows
  readsAs : ring.ReadsAs list.rows

theorem Shows.presents [ByteLog σ] [ReliableLog σ] {ring : Ring σ} {list : RowList}
    (h : ring.Shows list) (hlist : list.WellFormed) : ring.Presents list where
  start_eq := h.start_eq
  finish_eq := h.finish_eq
  maxRows_eq := h.maxRows_eq
  readsAs := h.readsAs hlist

section

variable [ByteLog σ] [LawfulLog σ] [ByteLog τ] [LawfulLog τ] {ring : Ring σ} {archive : Archive τ}

theorem Holds.movedTo {contents : RingContents} (h : ring.Holds contents)
    (harchive : archive.contents = ring.archive.contents) : (ring.movedTo archive).Holds contents :=
  { h with archive := harchive ▸ h.archive }

theorem Shows.movedTo {list : RowList} (h : ring.Shows list)
    (harchive : archive.contents = ring.archive.contents) : (ring.movedTo archive).Shows list := by
  obtain ⟨contents, hholds, hcontents⟩ := h
  exact ⟨contents, hholds.movedTo harchive, hcontents⟩

theorem frozenContents_movedTo (harchive : archive.contents = ring.archive.contents) :
    (ring.movedTo archive).frozenContents = ring.frozenContents := by
  have hrows : (ring.movedTo archive).windowRows = ring.windowRows := rfl
  rw [frozenContents, frozenContents, hrows, ← harchive]
  rfl

end

def rewrapMarkers [ByteLog σ] (columns : Nat) :
    EStateM RingError (Ring σ × List Position) Unit := fun (ring, markers) =>
  match rewrap columns markers ring with
  | .ok positions ring => .ok () (ring, positions)
  | .error e ring => .error e (ring, markers)

theorem ends_rewrapMarkers [ByteLog σ] {ring : Ring σ} {columns : Nat} {markers : List Position}
    {ok : Unit → Ring σ × List Position → Prop} {err : RingError → Ring σ × List Position → Prop} :
    Ends (rewrapMarkers columns) (ring, markers) ok err
      ↔
    Ends (rewrap columns markers) ring (fun positions after => ok () (after, positions))
      (fun e after => err e (after, markers)) := by
  simp only [Ends, rewrapMarkers]
  cases rewrap columns markers ring <;> rfl

theorem Shows.exists_rewrapMarkers [ByteLog σ] [ReliableLog σ] {ring : Ring σ} {list : RowList}
    (h : ring.Shows list) (hlist : list.WellFormed) (hrange : ring.frozenContents.InRange)
    (columns : Nat) (markers : List Position) :
    ∃ after, rewrapMarkers columns (ring, markers) = .ok () (after, list.moveMarkers columns markers)
      ∧ after.Presents (list.rewrap columns) := by
  have hfreezes := FreezesInRange.of_frozenContents h.writable_le_finish hrange
  obtain ⟨_, after, hrun, rfl, hafter⟩ :=
    (h.ends_rewrap_moveMarkers hlist hfreezes columns markers).exists_ok
      fun e _ he => Archive.not_isFault e he.1
  refine ⟨after, ?_, hafter.presents (hlist.rewrap columns)⟩
  rw [rewrapMarkers, hrun]

end Ring

/--
A rewrap that fails, whichever calls of the logs do, leaves the markers, the bounds of the ring and all
rows as they were. Once the logs work again, rewrapping does what it would have done before.
-/
theorem Ring.rewrap_failed {σ τ : Type} [ByteLog σ] [LawfulLog σ] [ByteLog τ] [ReliableLog τ]
    {ring failed : Ring σ} (hring : ring.Attainable Row.Proper)
    (hrange : ring.frozenContents.InRange) {columns : Nat} {markers markers' : List Position}
    {e : RingError}
    (hfails : rewrapMarkers columns (ring, markers) = .error e (failed, markers')) :
    markers' = markers ∧ failed.start = ring.start ∧ failed.finish = ring.finish
      ∧ failed.maxRows = ring.maxRows
      ∧ ∀ archive archive' : Archive τ, archive.contents = ring.archive.contents →
        archive'.contents = failed.archive.contents →
        ∃ list, (ring.movedTo archive).Presents list ∧ (failed.movedTo archive').Presents list
          ∧ ∀ columns markers, ∃ after after' markers' list',
            rewrapMarkers columns (ring.movedTo archive, markers) = .ok () (after, markers')
              ∧ rewrapMarkers columns (failed.movedTo archive', markers) = .ok () (after', markers')
              ∧ after.Presents list' ∧ after'.Presents list' := by
  obtain ⟨list, hshows, hlist⟩ := hring.exists_shows fun _ hrow => hrow.2
  have hlist := hlist fun _ hrow => hrow
  have hfreezes := FreezesInRange.of_frozenContents hshows.writable_le_finish hrange
  have hends : Ends (rewrapMarkers columns) (ring, markers) (fun _ _ => True)
      (fun _ after => after.2 = markers ∧ after.1.Shows list
        ∧ after.1.frozenContents = ring.frozenContents) := by
    rw [ends_rewrapMarkers]
    apply (hshows.ends_rewrap_moveMarkers hlist hfreezes columns markers).imp
    · exact fun positions after _ => trivial
    · exact fun e after ⟨_, hafter⟩ => ⟨rfl, hafter⟩
  obtain ⟨rfl, hfailed, hfrozen⟩ := hends.of_error hfails
  refine ⟨rfl, ?_, ?_, ?_, ?_⟩
  · rw [hfailed.start_eq, hshows.start_eq]
  · rw [hfailed.finish_eq, hshows.finish_eq]
  · rw [hfailed.maxRows_eq, hshows.maxRows_eq]
  · intro archive archive' harchive harchive'
    have hbefore := hshows.movedTo harchive
    have hafter := hfailed.movedTo harchive'
    refine ⟨list, hbefore.presents hlist, hafter.presents hlist, ?_⟩
    intro columns markers
    obtain ⟨after, hrun, hpresents⟩ := hbefore.exists_rewrapMarkers hlist
      (by rwa [frozenContents_movedTo harchive]) columns markers
    obtain ⟨after', hrun', hpresents'⟩ := hafter.exists_rewrapMarkers hlist
      (by rwa [frozenContents_movedTo harchive', hfrozen]) columns markers
    exact ⟨after, after', _, _, hrun, hrun', hpresents, hpresents'⟩

/--
Rows that cannot be laid out anew because there is no log for them. Their markers stay until there is.
-/
theorem Ring.rewrap_failed_fresh :
    let wide : Row := { cells := Cell.glyph 'x' { columns := 2 } ++ Cell.glyph 'y' {} }
    let ring : Ring (SwitchedLog MemoryLog) :=
      (ofLogs 4 1 { log := default, failFresh := true } { log := default } { log := default }).after
        ([.call (.append wide), .call (.append Row.empty)] : List (Operation ByteArray))
    ∃ failed after,
      rewrapMarkers 1 (ring, [⟨0, 2⟩, ⟨7, 3⟩])
          = .error (.log .row SwitchedLog.injected) (failed, [⟨0, 2⟩, ⟨7, 3⟩])
        ∧ (failed.movedTo failed.archive.unswitched).ReadsAs [wide, Row.empty]
        ∧ rewrapMarkers 1 (failed.movedTo failed.archive.unswitched, [⟨0, 2⟩, ⟨7, 3⟩])
          = .ok () (after, [⟨1, 0⟩, ⟨8, 3⟩]) := by
  intro wide ring
  have hring : ring.Attainable Row.Proper :=
    (Attainable.ofLogs 4 1 _ _ _).after (by decide) (by decide +kernel)
  have houtcome : outcome (rewrapMarkers 1) (ring, [⟨0, 2⟩, ⟨7, 3⟩])
      = .error (.log .row SwitchedLog.injected) := by decide +kernel
  have hfails := eq_error_of_outcome houtcome
  generalize final (rewrapMarkers 1) (ring, [⟨0, 2⟩, ⟨7, 3⟩]) = state at hfails
  obtain ⟨failed, markers⟩ := state
  obtain ⟨rfl, -, -, -, hlater⟩ :=
    rewrap_failed (τ := MemoryLog) hring (by decide +kernel) hfails
  obtain ⟨list, hbefore, hafter, hlater⟩ := hlater ring.archive.unswitched
    failed.archive.unswitched ring.archive.contents_unswitched failed.archive.contents_unswitched
  have hrows : list.rows = [wide, Row.empty] := hbefore.readsAs.eq (by decide +kernel)
  obtain ⟨_, after, markers, _, hrun, hrun', -⟩ := hlater 1 [⟨0, 2⟩, ⟨7, 3⟩]
  have hmoved : (final (rewrapMarkers 1) (ring.movedTo ring.archive.unswitched,
      [⟨0, 2⟩, ⟨7, 3⟩])).2 = [⟨1, 0⟩, ⟨8, 3⟩] := by decide +kernel
  rw [final, hrun] at hmoved
  obtain rfl : markers = [⟨1, 0⟩, ⟨8, 3⟩] := hmoved
  exact ⟨failed, after, hfails, hrows ▸ hafter.readsAs, hrun'⟩

end Scrollback
