import Scrollback.Proofs.Archive.Relayout
import Scrollback.Proofs.Ring.Frozen
import Scrollback.Proofs.Ring.Insert
import Scrollback.Ring.Rewrap

/-!
This module contains the proof that a ring is brought to another number of columns as its paragraphs
are.
-/

namespace Scrollback

namespace Ring

variable {σ : Type} [ByteLog σ] [LawfulLog σ]

theorem ends_appendEntries (entries : List RowEntry) (log : σ) :
    Ends (appendEntries entries) log
      (fun _ after => LawfulLog.contents after
        = (LawfulLog.contents log).append (entries.flatMap RowEntry.encode))
      (fun e _ => LawfulLog.Fault σ e) := by
  induction entries generalizing log with
  | nil =>
    rw [appendEntries, ends_pure]
    simp [LogContents.append]
  | cons entry entries ih =>
    rw [appendEntries, ends_bind, ends_discard]
    apply (LawfulLog.append_law log entry.encode.toByteArray).imp
    · rintro _ next ⟨-, hnext⟩
      apply (ih next).imp
      · intro _ after hafter
        rw [hafter, hnext, List.data_toByteArray, List.toList_toArray]
        simp [LogContents.append]
      · exact fun e after herr => herr
    · exact fun e after herr => herr.1

theorem ends_rowLog (index : Nat) (entries : List RowEntry) (archive : Archive σ) :
    Ends (rowLog index entries) archive
      (fun log after => LawfulLog.contents log
          = { tail := RowEntry.offsetOf index, bytes := entries.flatMap RowEntry.encode }
        ∧ after.contents = archive.contents)
      (fun e after => Archive.IsFault σ e ∧ after.contents = archive.contents) := by
  unfold rowLog
  rw [ends_bind, Archive.ends_onLog]
  apply (LawfulLog.fresh_law archive.rows).imp
  · intro log rows hrows
    have happend := ends_appendEntries entries (ByteLog.reset log (RowEntry.offsetOf index))
    unfold Ends at happend
    split at happend
    · next heq =>
      rw [heq, ends_pure, happend, LawfulLog.contents_reset]
      exact ⟨rfl, Archive.contents_setLog archive hrows⟩
    · next heq =>
      rw [heq, ends_throw]
      exact ⟨Archive.isFault_log happend, Archive.contents_setLog archive hrows⟩
  · rintro e rows ⟨he, hrows⟩
    exact ⟨Archive.isFault_log he, Archive.contents_setLog archive hrows⟩

end Ring

def FrozenRow.anchor (start : Nat) (frozen : List FrozenRow) (marker : Position) : Anchor :=
  if start + frozen.length ≤ marker.line then
    .below (marker.line - (start + frozen.length)) marker.column
  else
    let column := if marker.line < start then 0 else marker.column
    (frozen[marker.line - start]?).elim (.below 0 0) fun row =>
      Anchor.locate row.line.softWrapped column 0 row.start row.line.toRow.cells

namespace Ring

variable {σ : Type} [ByteLog σ] [LawfulLog σ] {ring : Ring σ}

namespace Holds

variable {start maxRows : Nat} {frozen : List FrozenRow}

theorem ends_anchor (h : ring.Holds { start, maxRows, frozen, live := [] }) (hfrozen : frozen ≠ [])
    (marker : Position) {archive : Archive σ} (harchive : archive.contents = ring.archive.contents) :
    Ends (ring.anchor marker) { ring with archive }
      (fun anchor after => anchor = FrozenRow.anchor start frozen marker
        ∧ ∃ archive, after = { ring with archive } ∧ archive.contents = ring.archive.contents)
      (fun e after => Archive.IsFault σ e
        ∧ ∃ archive, after = { ring with archive } ∧ archive.contents = ring.archive.contents) := by
  have hfinish := h.finish_eq
  have hstart := h.start_eq
  simp only [RingContents.finish, RingContents.writable, List.length_nil, Nat.add_zero]
    at hfinish hstart
  have hlength := List.length_pos_iff.mpr hfrozen
  unfold Ring.anchor FrozenRow.anchor
  rw [hfinish, hstart]
  split
  · rw [ends_pure]
    exact ⟨rfl, archive, rfl, harchive⟩
  · next hbelow =>
    obtain ⟨changes, hholds⟩ := h.archive
    obtain ⟨row, hrow⟩ : ∃ row, frozen[marker.line - start]? = some row :=
      ⟨_, List.getElem?_eq_getElem (by omega)⟩
    have hplace : (if marker.line < start then (start, 0) else (marker.line, marker.column))
        = (start + (marker.line - start), if marker.line < start then 0 else marker.column) := by
      split
      · rw [Nat.sub_eq_zero_of_le (by omega), Nat.add_zero]
      · rw [Nat.add_sub_of_le (by omega)]
    rw [hplace, hrow, Option.elim_some]
    dsimp only
    rw [ends_bind, ends_onArchive]
    apply (hholds.reads_read hrow).imp_ends harchive
    · intro after hafter
      rw [ends_pure, hholds.softWrapped_eq hrow]
      exact ⟨rfl, after, rfl, hafter⟩
    · exact fun e after he hafter => ⟨he, after, rfl, hafter⟩

theorem ends_anchors (h : ring.Holds { start, maxRows, frozen, live := [] }) (hfrozen : frozen ≠ [])
    (markers : List Position) :
    Ends (markers.mapM ring.anchor) ring
      (fun anchors after => anchors = markers.map (FrozenRow.anchor start frozen)
        ∧ ∃ archive, after = { ring with archive } ∧ archive.contents = ring.archive.contents)
      (fun e after => Archive.IsFault σ e
        ∧ ∃ archive, after = { ring with archive } ∧ archive.contents = ring.archive.contents) := by
  apply Ends.mapM
  · rintro marker _ ⟨archive, rfl, harchive⟩
    exact h.ends_anchor hfrozen marker harchive
  · exact ⟨ring.archive, rfl, rfl⟩

theorem relaid (h : ring.Holds { start, maxRows, frozen, live := [] }) {archive : Archive σ}
    {changes : List StyleChange} {new : List FrozenRow} (hnew : new ≠ [])
    (harchive : archive.contents.Holds start new changes) {entries : Array RowEntry}
    (hentries : entries.toList = new.map (·.entry)) {first : Nat}
    (hfirst : first = max (ring.start + entries.size - ring.maxRows) ring.start)
    (hmaxRows : 0 < maxRows) :
    { ring with
      start := first
      writable := ring.start + entries.size
      finish := ring.start + entries.size
      archive :=
        match entries[first - ring.start]? with
        | some entry => archive.advanceTails first entry
        | none => archive
      cache := none }.Holds
      (RingContents.drop { start, maxRows, frozen := new, live := [] } (new.length - maxRows)) := by
  have hsize : entries.size = new.length := by
    rw [← Array.length_toList, hentries, List.length_map]
  have hlength := List.length_pos_iff.mpr hnew
  obtain ⟨row, hrow⟩ : ∃ row, new[new.length - maxRows]? = some row :=
    ⟨_, List.getElem?_eq_getElem (by omega)⟩
  have hstart : ring.start = start := h.start_eq
  have hmax : ring.maxRows = maxRows := h.maxRows_eq
  have hfirst : first = start + (new.length - maxRows) := by
    omega
  have hentry : entries[first - ring.start]? = some row.entry := by
    rw [hfirst, hstart, Nat.add_sub_cancel_left, ← Array.getElem?_toList, hentries,
      List.getElem?_map, hrow]
    rfl
  rw [hentry]
  constructor
  · exact hfirst
  · simp only [RingContents.writable, RingContents.drop, List.length_drop]
    omega
  · simp only [RingContents.finish, RingContents.writable, RingContents.drop, List.length_drop,
      List.drop_nil, List.length_nil]
    omega
  · exact h.maxRows_eq
  · obtain ⟨changes', hadvance⟩ := harchive.advanceTails hrow
    refine ⟨changes', ?_⟩
    dsimp only
    rw [Archive.contents_advanceTails, hfirst]
    exact hadvance
  · rw [RingContents.drop, List.drop_nil]
    exact Window.Shows.nil
  · intro _ _ hcache
    contradiction
  · simp [RingContents.drop]

end Holds

end Ring

def ArchiveContents.positions (contents : ArchiveContents) (changes : List StyleChange)
    (start maxRows : Nat) (frozen : List FrozenRow) (columns : Nat) (markers : List Position) :
    List Position :=
  let anchors := markers.map (FrozenRow.anchor start frozen)
  let layout := contents.layout changes frozen columns anchors
  let finish := start + layout.entries.size
  (anchors.zip layout.placed.toList).map fun (anchor, placed) =>
    anchor.resolve start (max (finish - maxRows) start) finish placed

namespace Ring

variable {σ : Type} [ByteLog σ] {ring : Ring σ}

theorem rewrap_of_start_eq_finish (h : ring.start = ring.finish) (columns : Nat)
    (markers : List Position) : rewrap columns markers ring = .ok markers ring := by
  have hempty : ring.isEmpty = true := by simp [isEmpty, h]
  change (if ring.isEmpty = true then pure markers else _ : EStateM _ _ _) ring = _
  rw [if_pos hempty]
  rfl

variable [LawfulLog σ]

def FreezesInRange (ring : Ring σ) : Prop :=
  Ends (freezeRows (ring.finish - ring.writable)) ring (fun _ after => after.archive.InRange)
    (fun _ after => after.archive.InRange)

instance (ring : Ring σ) : Decidable ring.FreezesInRange :=
  inferInstanceAs (Decidable (Ends _ _ _ _))

theorem FreezesInRange.of_frozenContents (hfinish : ring.writable ≤ ring.finish)
    (h : ring.frozenContents.InRange) : ring.FreezesInRange := by
  apply (ends_freezeRows_frozenContents (Nat.le_of_eq (Nat.add_sub_of_le hfinish))).imp
  · exact fun _ after hafter => inRange_of_frozenContents (hafter ▸ h)
  · exact fun _ after hafter => inRange_of_frozenContents (hafter ▸ h)

theorem ends_rewrap {start maxRows : Nat} {p : List FrozenRow → ArchiveContents → Prop}
    {err : RingError → Ring σ → Prop} (hsize : ring.start < ring.finish) (hmaxRows : 0 < maxRows)
    (hp : ∀ frozen contents, p frozen contents → frozen ≠ [])
    (hfreeze : Ends (freezeRows (ring.finish - ring.writable)) ring
      (fun _ after => after.archive.InRange ∧ ∃ frozen,
        after.Holds { start, maxRows, frozen, live := [] } ∧ p frozen after.archive.contents)
      err)
    (herr : ∀ e after frozen, Archive.IsFault σ e →
      after.Holds { start, maxRows, frozen, live := [] } → p frozen after.archive.contents →
      err e after)
    (columns : Nat) (markers : List Position) :
    Ends (rewrap columns markers) ring
      (fun positions after => ∃ frozen contents changes, p frozen contents
        ∧ ArchiveContents.Holds contents start frozen changes ∧ contents.InRange
        ∧ positions = contents.positions changes start maxRows frozen columns markers
        ∧ ∃ new : List FrozenRow, new.map (·.line) = StyledLine.rewrap (frozen.map (·.line)) columns
          ∧ after.Holds
            (RingContents.drop { start, maxRows, frozen := new, live := [] } (new.length - maxRows))
          ∧ after.archive.InRange)
      err := by
  -- Rewrapping freezes all rows first. What they are frozen as decides on the rest.
  unfold rewrap
  rw [ends_bind, ends_get, if_neg]
  · rw [ends_bind, ends_get, ends_bind]
    apply hfreeze.imp
    · rintro _ ring ⟨hrange, frozen, h, hfrozen⟩
      have hstart : ring.start = start := h.start_eq
      have hfinish : ring.finish = start + frozen.length := h.finish_eq
      have hmax : ring.maxRows = maxRows := h.maxRows_eq
      obtain ⟨changes, hholds⟩ := h.archive
      have hlayout (anchors : List Anchor) : Archive.Reads (σ := σ)
          ((Layout.ofAnchors (max columns 1) anchors).addRows ring.start ring.finish)
          ring.archive.contents (ring.archive.contents.layout changes frozen columns anchors) := by
        rw [hstart, hfinish]
        exact hholds.reads_layout columns anchors
      have hcontents : ring.archive.contents.InRange := Archive.inRange_iff.mp hrange
      rw [ends_bind, ends_get, ends_bind]
      apply (h.ends_anchors (hp frozen _ hfrozen) markers).imp
      · rintro _ _ ⟨rfl, archive, rfl, harchive⟩
        rw [ends_bind, ends_onArchive]
        apply (hlayout _).imp_ends harchive
        · intro archive harchive
          obtain ⟨new, hentries, hlines, hnew⟩ := hholds.exists_relayout hcontents columns
            (markers.map (FrozenRow.anchor start frozen))
          dsimp only at hentries hlines hnew ⊢
          rw [ends_bind, ends_onArchive]
          apply (ends_rowLog _ _ archive).imp
          · rintro log archive' ⟨hlog, harchive'⟩
            rw [ends_bind, ends_modify, ends_pure]
            refine ⟨frozen, ring.archive.contents, changes, hfrozen, hholds, hcontents, ?_, new, hlines,
              ?_⟩
            · rw [ArchiveContents.positions, hstart, hmax]
            · -- The oldest row that is kept has an entry only because there are rows at all.
              have hne : new ≠ [] := by
                rintro rfl
                exact StyledLine.rewrap_ne_nil (by simpa using hp frozen _ hfrozen) columns hlines.symm
              have hlog : LawfulLog.contents log
                  = { tail := RowEntry.offsetOf start, bytes := new.flatMap (·.entry.encode) } := by
                rw [hlog, hentries, List.flatMap_map, hstart]
              rw [← hlog, ← harchive, ← harchive'] at hnew
              change ({ archive' with rows := log } : Archive σ).contents.Holds _ _ _ at hnew
              refine ⟨h.relaid hne hnew hentries rfl hmaxRows, ?_⟩
              have harchive' : ({ archive' with rows := log } : Archive σ).InRange := by
                rw [← harchive, ← harchive', ← Archive.inRange_iff] at hcontents
                exact hcontents
              dsimp only
              split
              · rw [Archive.inRange_iff, Archive.contents_advanceTails,
                  ArchiveContents.inRange_advanceTails, ← Archive.inRange_iff]
                exact harchive'
              · exact harchive'
          · rintro e archive' ⟨he, harchive'⟩
            have harchive := harchive'.trans harchive
            exact herr e _ frozen he (h.withArchive harchive) (harchive ▸ hfrozen)
        · exact fun e archive he harchive =>
            herr e _ frozen he (h.withArchive harchive) (harchive ▸ hfrozen)
      · rintro e _ ⟨he, archive, rfl, harchive⟩
        exact herr e _ frozen he (h.withArchive harchive) (harchive ▸ hfrozen)
    · exact fun e after herr => herr
  · simpa [isEmpty] using Nat.ne_of_lt hsize

end Ring

namespace RowList

def rewrap (list : RowList) (columns : Nat) : RowList :=
  { list with rows := Row.rewrap list.rows columns }.drop
    ((Row.rewrap list.rows columns).length - list.maxRows)

theorem rewrap_of_rows_eq_nil {list : RowList} (h : list.rows = []) (columns : Nat) :
    list.rewrap columns = list := by
  obtain ⟨start, rows, maxRows, hmaxRows⟩ := list
  obtain rfl : rows = [] := h
  have hrows : Row.rewrap [] columns = [] := rfl
  simp [rewrap, drop, hrows]

theorem finish_rewrap (list : RowList) (columns : Nat) :
    (list.rewrap columns).finish = list.start + (Row.rewrap list.rows columns).length := by
  have := list.maxRows_pos
  rw [finish, rewrap, drop, List.length_drop]
  dsimp only
  omega

theorem start_rewrap (list : RowList) (columns : Nat) :
    (list.rewrap columns).start
      =
    max list.start ((list.rewrap columns).finish - list.maxRows) := by
  rw [finish_rewrap, rewrap, drop]
  dsimp only
  omega

theorem WellFormed.rewrap {list : RowList} (h : list.WellFormed) (columns : Nat) :
    (list.rewrap columns).WellFormed :=
  fun row hrow => Row.wellFormed_rewrap h columns row (List.mem_of_mem_drop hrow)

end RowList

theorem FrozenRow.map_toRow_eq {frozen : List FrozenRow} {rows : List Row}
    (hrows : ∀ row ∈ rows, row.WellFormed) (h : frozen.map (·.line) = rows.map Row.styled) :
    frozen.map (·.line.toRow) = rows := by
  calc frozen.map (·.line.toRow)
    _ = (frozen.map (·.line)).map StyledLine.toRow := by
      rw [List.map_map]
      rfl
    _ = rows.map (·.styled.toRow) := by
      rw [h, List.map_map]
      rfl
    _ = rows := by
      rw [List.map_congr_left fun row hrow => (hrows row hrow).toRow_styled, List.map_id']

namespace RingContents.Shows

variable {start maxRows : Nat} {frozen new : List FrozenRow} {list : RowList}

theorem freezeRows {rows live : List Row}
    (h : RingContents.Shows { start, maxRows, frozen, live := rows ++ live } list)
    (hnew : new.map (·.line) = rows.map Row.styled) :
    RingContents.Shows { start, maxRows, frozen := frozen ++ new, live } list := by
  induction rows generalizing frozen new with
  | nil =>
    rw [List.map_nil, List.map_eq_nil_iff] at hnew
    rw [hnew, List.append_nil]
    exact h
  | cons row rows ih =>
    obtain ⟨first, later, rfl, hfirst, hlater⟩ := List.map_eq_cons_iff.mp hnew
    rw [List.append_cons]
    apply ih _ hlater
    have hfreeze := h.freeze first.entry
    rw [← hfirst] at hfreeze
    exact hfreeze

theorem of_map_line (hrows : list.WellFormed) (hnew : new.map (·.line) = list.rows.map Row.styled) :
    RingContents.Shows { start := list.start, maxRows := list.maxRows, frozen := new, live := [] }
      list := by
  have hshown := FrozenRow.map_toRow_eq hrows hnew
  constructor
  · rfl
  · rfl
  · rw [RingContents.rows, List.append_nil, hshown, List.forall₂_same]
    exact fun row _ => Row.ShownAs.refl row
  · intro k row row' hk hk' _
    have heq := congrArg (·[k]?) hnew
    simpa [hk, hk'] using heq

theorem map_line_eq (h : RingContents.Shows { start, maxRows, frozen, live := [] } list)
    (hlist : list.WellFormed) : frozen.map (·.line) = list.rows.map Row.styled := by
  have hlength := h.rows.length_eq
  rw [RingContents.rows, List.append_nil, List.length_map] at hlength
  apply List.ext_getElem
  · rw [List.length_map, List.length_map, hlength]
  · intro k hk hk'
    rw [List.length_map] at hk hk'
    rw [List.getElem_map, List.getElem_map]
    exact h.line_eq k _ _ (List.getElem?_eq_getElem hk) (List.getElem?_eq_getElem hk')
      (hlist _ (List.getElem_mem hk'))

end RingContents.Shows

namespace Ring.Shows

variable {σ : Type} [ByteLog σ] [LawfulLog σ] {ring : Ring σ} {list : RowList}

theorem rewrap_of_rows_eq_nil (h : ring.Shows list) (hrows : list.rows = []) (columns : Nat)
    (markers : List Position) : rewrap columns markers ring = .ok markers ring := by
  apply rewrap_of_start_eq_finish
  rw [h.start_eq, h.finish_eq, RowList.finish, hrows]
  rfl

theorem ends_freezeRows (h : ring.Shows list) (hrange : ring.FreezesInRange) :
    Ends (freezeRows (ring.finish - ring.writable)) ring
      (fun _ after => after.archive.InRange ∧ ∃ frozen,
        after.Holds { start := list.start, maxRows := list.maxRows, frozen, live := [] }
          ∧ RingContents.Shows { start := list.start, maxRows := list.maxRows, frozen, live := [] }
            list)
      (fun e after => Archive.IsFault σ e ∧ after.Shows list) := by
  unfold FreezesInRange at hrange
  obtain ⟨⟨start, maxRows, frozen, live⟩, h, hlist⟩ := h
  have hcount : ring.finish - ring.writable = live.length := h.finish_sub_writable
  rw [hcount] at hrange ⊢
  rw [← List.append_nil live] at h hlist
  apply ((h.ends_freezeRows live).and hrange).imp
  · rintro _ after ⟨hafter, hrange⟩
    obtain ⟨new, hnew, hafter⟩ := hafter hrange
    have hshows := hlist.freezeRows hnew
    rw [← hlist.start_eq, ← hlist.maxRows_eq]
    exact ⟨hrange, _, hafter, hshows⟩
  · rintro e after ⟨⟨he, hafter⟩, hrange⟩
    obtain ⟨before, later, new, rfl, hnew, hafter⟩ := hafter hrange
    rw [List.append_assoc] at hlist
    exact ⟨he, _, hafter, hlist.freezeRows hnew⟩

theorem ends_rewrap_frozen (h : ring.Shows list) (hrows : list.rows ≠ [])
    (hrange : ring.FreezesInRange) (columns : Nat) (markers : List Position) :
    Ends (rewrap columns markers) ring
      (fun positions after => ∃ frozen contents changes,
        RingContents.Shows { start := list.start, maxRows := list.maxRows, frozen, live := [] } list
        ∧ ArchiveContents.Holds contents list.start frozen changes ∧ contents.InRange
        ∧ positions = contents.positions changes list.start list.maxRows frozen columns markers
        ∧ ∃ new : List FrozenRow, new.map (·.line) = StyledLine.rewrap (frozen.map (·.line)) columns
          ∧ after.Holds (RingContents.drop
            { start := list.start, maxRows := list.maxRows, frozen := new, live := [] }
            (new.length - list.maxRows))
          ∧ after.archive.InRange)
      (fun e after => Archive.IsFault σ e ∧ after.Shows list
        ∧ after.frozenContents = ring.frozenContents) := by
  have hsize : ring.start < ring.finish := by
    rw [h.start_eq, h.finish_eq, RowList.finish]
    exact Nat.lt_add_of_pos_right (List.length_pos_iff.mpr hrows)
  have hfreeze : Ends (freezeRows (ring.finish - ring.writable)) ring
      (fun _ after => after.archive.InRange ∧ ∃ frozen,
        after.Holds { start := list.start, maxRows := list.maxRows, frozen, live := [] }
          ∧ RingContents.Shows { start := list.start, maxRows := list.maxRows, frozen, live := [] } list
          ∧ after.archive.contents = ring.frozenContents)
      (fun e after => Archive.IsFault σ e ∧ after.Shows list
        ∧ after.frozenContents = ring.frozenContents) := by
    have hcount := Nat.le_of_eq (Nat.add_sub_of_le h.writable_le_finish)
    apply ((h.ends_freezeRows hrange).and (ends_freezeRows_frozenContents hcount)).imp
    · rintro _ after ⟨⟨hrange, frozen, hafter, hshows⟩, hcontents⟩
      rw [frozenContents_of_writable_eq hafter.writable_eq_finish] at hcontents
      exact ⟨hrange, frozen, hafter, hshows, hcontents⟩
    · rintro e after ⟨⟨he, hafter⟩, hcontents⟩
      exact ⟨he, hafter, hcontents⟩
  have hne : ∀ (frozen : List FrozenRow) (contents : ArchiveContents),
      RingContents.Shows { start := list.start, maxRows := list.maxRows, frozen, live := [] } list
        ∧ contents = ring.frozenContents → frozen ≠ [] := by
    rintro frozen contents ⟨hshows, -⟩ rfl
    exact hrows (List.forall₂_nil_left_iff.mp hshows.rows)
  apply (Ring.ends_rewrap hsize list.maxRows_pos hne hfreeze ?_ columns markers).imp
  · rintro positions after ⟨frozen, contents, changes, ⟨hshows, -⟩, hafter⟩
    exact ⟨frozen, contents, changes, hshows, hafter⟩
  · exact fun e after herr => herr
  · rintro e after frozen he hafter ⟨hshows, hcontents⟩
    rw [← frozenContents_of_writable_eq hafter.writable_eq_finish] at hcontents
    exact ⟨he, ⟨_, hafter, hshows⟩, hcontents⟩

theorem ends_rewrap (h : ring.Shows list) (hlist : list.WellFormed) (hrows : list.rows ≠ [])
    (hrange : ring.FreezesInRange) (columns : Nat) (markers : List Position) :
    Ends (rewrap columns markers) ring
      (fun positions after => after.Shows (list.rewrap columns) ∧ after.writable = after.finish
        ∧ after.archive.InRange ∧ ∃ frozen contents changes,
          ArchiveContents.Holds contents list.start frozen changes ∧ contents.InRange
          ∧ frozen.map (·.line) = list.rows.map Row.styled
          ∧ positions
            = contents.positions changes list.start list.maxRows frozen columns markers)
      (fun e after => Archive.IsFault σ e ∧ after.Shows list
        ∧ after.frozenContents = ring.frozenContents) := by
  apply (h.ends_rewrap_frozen hrows hrange columns markers).imp
  · rintro _ after
      ⟨frozen, contents, changes, hshows, hholds, hrange, rfl, new, hlines, hafter, hinRange⟩
    have hline := hshows.map_line_eq hlist
    rw [hline, ← Row.map_styled_rewrap hlist] at hlines
    refine ⟨⟨_, hafter, ?_⟩, ?_, hinRange, frozen, contents, changes, hholds, hrange, hline, rfl⟩
    · have hlength : new.length = (Row.rewrap list.rows columns).length := by
        have := congrArg List.length hlines
        simpa using this
      have hwellFormed : RowList.WellFormed { list with rows := Row.rewrap list.rows columns } :=
        Row.wellFormed_rewrap hlist columns
      have hnew := RingContents.Shows.of_map_line hwellFormed hlines
      rw [hlength]
      exact hnew.drop _
    · rw [hafter.writable_eq, hafter.finish_eq, RingContents.finish, RingContents.drop, List.drop_nil]
      rfl
  · exact fun e after herr => herr

end Ring.Shows

end Scrollback
