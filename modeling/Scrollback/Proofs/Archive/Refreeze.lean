import Mathlib.Data.List.Basic
import Scrollback.Proofs.Archive.Lossless

/-!
This module contains the proof that thawing the newest row undoes its freezing, up to the changes of
style that ended the text before it, and that freezing the row again makes up for these.
-/

namespace Scrollback

namespace Draft

/--
How the draft of a row compares with the draft of the same row once the archive was cut back to the
start of that row. The changes `before` end the text before the row, and stay behind. The run that the
row begins in may start at different offsets.
-/
structure Resumes (before : List StyleChange) (run run' : OpenRun) (start : Nat)
    (draft draft' : Draft) : Prop where
  text_eq : draft'.text = draft.text
  size_pos : 0 < draft.text.utf8ByteSize
  ascii_eq : draft'.ascii = draft.ascii
  leading_eq : draft.leading = some before.length ∧ draft'.leading = some 0
  changes_eq : draft.changes = before ++ draft'.changes
  run_eq : draft'.changes = [] → draft.run = run ∧ draft'.run = run'
  run_eq_of_ne : draft'.changes ≠ [] → draft'.run = draft.run
  head_eq : ∀ change ∈ draft'.changes.head?, change.style = run.style
    ∧ ∃ size ≤ draft.text.utf8ByteSize, 0 < size ∧ change.textEnd = .ofNat (start + size)

namespace Resumes

variable {before : List StyleChange} {run run' : OpenRun} {start : Nat} {draft draft' : Draft}

theorem style_eq (h : Resumes before run run' start draft draft') (hstyle : run'.style = run.style) :
    draft'.run.style = draft.run.style := by
  by_cases hchanges : draft'.changes = []
  · rw [(h.run_eq hchanges).1, (h.run_eq hchanges).2, hstyle]
  · rw [h.run_eq_of_ne hchanges]

theorem switch (h : Resumes before run run' start draft draft') (hstyle : run'.style = run.style)
    (hrun : run.start ≤ start) (hrun' : run'.start ≤ start) (style : Style) :
    Resumes before run run' start (draft.switch start style) (draft'.switch start style) := by
  have hsize := h.size_pos
  have hchanges' : (draft'.switch start style).changes
      = draft'.changes ++ (draft'.run.switch (start + draft.text.utf8ByteSize) style).2.toList := by
    rw [← h.text_eq]
    rfl
  have hrun_eq : (draft'.switch start style).run = (draft.switch start style).run := by
    simp only [Draft.switch, OpenRun.switch, h.text_eq]
  by_cases hchanges : draft'.changes = []
  · -- The first change within the row ends the run that the row began in, wherever that run starts.
    have hswitch : draft'.changes
          ++ (draft'.run.switch (start + draft.text.utf8ByteSize) style).2.toList
        = [{ textEnd := .ofNat (start + draft.text.utf8ByteSize), style := run.style }] := by
      rw [hchanges, (h.run_eq hchanges).2, OpenRun.switch, if_pos (by omega), hstyle]
      rfl
    rw [hswitch] at hchanges'
    refine ⟨h.text_eq, hsize, h.ascii_eq, h.leading_eq, ?_, ?_, fun _ => hrun_eq, ?_⟩
    · rw [hchanges']
      simp only [Draft.switch]
      rw [h.changes_eq, hchanges, (h.run_eq hchanges).1, OpenRun.switch, if_pos (by omega),
        List.append_nil]
      rfl
    · simp [hchanges']
    · rw [hchanges', List.head?_cons]
      rintro _ ⟨⟩
      exact ⟨rfl, _, Nat.le_refl _, hsize, rfl⟩
  · refine ⟨h.text_eq, hsize, h.ascii_eq, h.leading_eq, ?_, ?_, fun _ => hrun_eq, ?_⟩
    · rw [hchanges', ← List.append_assoc, ← h.changes_eq, h.run_eq_of_ne hchanges]
      rfl
    · simp [hchanges', hchanges]
    · rw [hchanges', List.head?_append_of_ne_nil _ hchanges]
      exact h.head_eq

theorem setText (h : Resumes before run run' start draft draft') (text : String) (ascii : Bool)
    (hsize : draft.text.utf8ByteSize ≤ text.utf8ByteSize) :
    Resumes before run run' start { draft with text, ascii } { draft' with text, ascii } := by
  refine ⟨rfl, Nat.lt_of_lt_of_le h.size_pos hsize, rfl, h.leading_eq, h.changes_eq, h.run_eq,
    h.run_eq_of_ne, ?_⟩
  intro change hchange
  obtain ⟨heq, size, hle, hpos, hend⟩ := h.head_eq change hchange
  exact ⟨heq, size, Nat.le_trans hle hsize, hpos, hend⟩

theorem addBase (h : Resumes before run run' start draft draft') (hstyle : run'.style = run.style)
    (hrun : run.start ≤ start) (hrun' : run'.start ≤ start) (cell : Cell) :
    Resumes before run run' start (draft.addBase start cell) (draft'.addBase start cell) := by
  have hswitched : Resumes before run run' start
      (if cell.style = draft.run.style then draft else draft.switch start cell.style)
      (if cell.style = draft'.run.style then draft' else draft'.switch start cell.style) := by
    rw [h.style_eq hstyle]
    split
    · exact h
    · exact h.switch hstyle hrun hrun' cell.style
  unfold Draft.addBase
  generalize (if cell.style = draft.run.style then draft else _) = switched at *
  generalize (if cell.style = draft'.run.style then draft' else _) = switched' at *
  dsimp only
  rw [hswitched.leading_eq.1, hswitched.leading_eq.2, hswitched.text_eq, hswitched.ascii_eq]
  have := hswitched.setText (switched.text.push cell.char) (switched.ascii && cell.isAscii) (by simp)
  simpa [hswitched.leading_eq] using this

theorem lt_textEnd (h : Resumes before run run' start draft draft')
    (hrange : start + draft.text.utf8ByteSize < 2 ^ 64) :
    ∀ change ∈ draft'.changes.head?, start < change.textEnd.toNat := by
  intro change hchange
  obtain ⟨-, size, hle, hpos, hend⟩ := h.head_eq change hchange
  have hlt : start + size < 2 ^ 64 := by omega
  rw [hend, UInt64.toNat_ofNat_of_lt' hlt]
  omega

theorem addMarks (h : Resumes before run run' start draft draft') (hstyle : run'.style = run.style)
    (hrun : run.start ≤ start) (hrun' : run'.start ≤ start) (marks : List Char) :
    Resumes before run run' start (draft.addMarks start marks) (draft'.addMarks start marks) := by
  unfold Draft.addMarks
  split
  · exact h
  · have hswitched := h.switch hstyle hrun hrun' Style.combining
    have hset := hswitched.setText
      ((draft.switch start Style.combining).text ++ String.ofList marks)
      (draft.switch start Style.combining).ascii (by simp)
    dsimp only
    rw [hswitched.text_eq]
    nth_rewrite 2 [← hswitched.ascii_eq] at hset
    exact hset

theorem addCell (h : Resumes before run run' start draft draft') (hstyle : run'.style = run.style)
    (hrun : run.start ≤ start) (hrun' : run'.start ≤ start) (cell : Cell) :
    Resumes before run run' start (draft.addCell start cell) (draft'.addCell start cell) := by
  unfold Draft.addCell
  split
  · exact h
  · exact (h.addBase hstyle hrun hrun' cell).addMarks hstyle hrun hrun' cell.markList

theorem foldl_addCell (h : Resumes before run run' start draft draft')
    (hstyle : run'.style = run.style) (hrun : run.start ≤ start) (hrun' : run'.start ≤ start)
    (cells : List Cell) :
    Resumes before run run' start
      (cells.foldl (fun draft cell => draft.addCell start cell) draft)
      (cells.foldl (fun draft cell => draft.addCell start cell) draft') := by
  induction cells generalizing draft draft' with
  | nil => exact h
  | cons cell cells ih => exact ih (h.addCell hstyle hrun hrun' cell)

theorem close (h : Resumes before run run' start draft draft') (softWrapped : Bool) :
    Resumes before run run' start (draft.close softWrapped) (draft'.close softWrapped) := by
  unfold Draft.close
  split
  · exact h
  · rw [h.text_eq]
    have hset := h.setText (draft.text.push '\n') draft.ascii (by simp)
    nth_rewrite 2 [← h.ascii_eq] at hset
    exact hset

end Resumes

theorem exists_resumes_addBase (run : OpenRun) {start : Nat} (hrun : run.start ≤ start)
    (cell : Cell) :
    ∃ before opened, opened.style = cell.style ∧ opened.start ≤ start
      ∧ (∀ change ∈ before, change.textEnd.toNat ≤ start)
      ∧ ∀ run' : OpenRun, run'.style = cell.style →
        Resumes before opened run' start (({ run } : Draft).addBase start cell)
          (({ run := run' } : Draft).addBase start cell) := by
  -- The run before the row goes on, or ends where the row starts.
  by_cases hstyle : cell.style = run.style
  · refine ⟨[], run, hstyle.symm, hrun, by simp, ?_⟩
    intro run' hstyle'
    simp only [Draft.addBase, if_pos hstyle, if_pos hstyle'.symm]
    constructor <;> simp [Char.utf8Size_pos]
  · refine ⟨(run.switch start cell.style).2.toList, (run.switch start cell.style).1, rfl,
      Nat.le_refl _, ?_, ?_⟩
    · unfold OpenRun.switch
      split <;> simp [Nat.mod_le]
    · intro run' hstyle'
      simp only [Draft.addBase, if_neg hstyle, if_pos hstyle'.symm]
      constructor <;> simp [Draft.switch, Char.utf8Size_pos]

theorem exists_resumes (run : OpenRun) {start : Nat} (hrun : run.start ≤ start) {row : Row}
    {lead : Cell} {leads : List Cell} (hleads : row.leads = lead :: leads) :
    ∃ before opened, opened.style = lead.style ∧ opened.start ≤ start
      ∧ (∀ change ∈ before, change.textEnd.toNat ≤ start)
      ∧ ∀ run' : OpenRun, run'.style = lead.style → run'.start ≤ start →
        Resumes before opened run' start (ofRow run start row) (ofRow run' start row) := by
  have hmem : lead ∈ row.leads := hleads ▸ List.mem_cons_self
  have hlead := fragment_of_mem_leads lead hmem
  obtain ⟨before, opened, hstyle, hopened, hbefore, hbase⟩ := exists_resumes_addBase run hrun lead
  refine ⟨before, opened, hstyle, hopened, hbefore, ?_⟩
  intro run' hstyle' hrun'
  have hsame : run'.style = opened.style := by rw [hstyle', hstyle]
  rw [ofRow_eq, ofRow_eq, hleads, List.foldl_cons, List.foldl_cons]
  apply Resumes.close
  apply Resumes.foldl_addCell _ hsame hopened hrun'
  simp only [Draft.addCell, hlead, Bool.false_eq_true, ↓reduceIte]
  exact (hbase run' hstyle').addMarks hsame hopened hrun' lead.markList

end Draft

theorem LogContents.tail_le (contents : LogContents) : contents.tail ≤ contents.head :=
  Nat.le_add_right _ _

theorem LogContents.truncate_append_append (contents : LogContents) (bytes bytes' : List UInt8) :
    (contents.append (bytes ++ bytes')).truncate (contents.head + bytes.length)
      =
    contents.append bytes := by
  have hsize : contents.head + bytes.length - contents.tail
      = contents.bytes.length + bytes.length := by
    rw [LogContents.head]
    omega
  simp only [truncate, append]
  rw [hsize, ← List.append_assoc, ← List.length_append, List.take_left]

section

variable {low cut : Nat} {earlier later : List StyleChange}

theorem findIdx_append_of_le (hearlier : ∀ change ∈ earlier, change.textEnd.toNat ≤ cut)
    (hlater : ∀ change ∈ later.head?, cut < change.textEnd.toNat) :
    (earlier ++ later).findIdx (cut < ·.textEnd.toNat) = earlier.length := by
  apply findIdx_eq_of_forall_take
  · rwa [List.take_left]
  · rwa [List.getElem?_append_right (Nat.le_refl _), Nat.sub_self, ← List.head?_eq_getElem?]
  · rw [List.length_append]
    omega

theorem reopened_append_of_le (hlow : low ≤ cut)
    (hearlier : ∀ change ∈ earlier, change.textEnd.toNat ≤ cut)
    (hlater : ∀ change ∈ later.head?, cut < change.textEnd.toNat) (run : OpenRun) :
    (later = [] → reopened low (earlier ++ later) run cut = run)
      ∧ ∀ change ∈ later.head?, (reopened low (earlier ++ later) run cut).style = change.style
        ∧ (reopened low (earlier ++ later) run cut).start ≤ cut := by
  have hget : (earlier ++ later)[earlier.length]? = later.head? := by
    rw [List.getElem?_append_right (Nat.le_refl _), Nat.sub_self, List.head?_eq_getElem?]
  unfold reopened reopened?
  dsimp only
  rw [findIdx_append_of_le hearlier hlater, hget, List.take_left]
  refine ⟨?_, ?_⟩
  · rintro rfl
    rfl
  · intro change hchange
    rw [Option.mem_def] at hchange
    rw [hchange]
    refine ⟨rfl, ?_⟩
    change earlier.getLast?.elim low (·.textEnd.toNat) ≤ cut
    cases hlast : earlier.getLast? with
    | none => exact hlow
    | some last => exact hearlier last (List.mem_of_getLast? hlast)

end

namespace ArchiveContents

/--
What the archive holds after changes of style were appended without any text. They end the text that
is there, so that another run is open.
-/
def endRuns (contents : ArchiveContents) (changes : List StyleChange) (run : OpenRun) :
    ArchiveContents :=
  { contents with
    attributes := contents.attributes.append (changes.flatMap StyleChange.encode)
    openRun := run }

theorem endRuns_nil (contents : ArchiveContents) :
    contents.endRuns [] contents.openRun = contents := by
  simp [endRuns, LogContents.append]

variable {contents : ArchiveContents} {row : Row}

theorem freeze_endRuns {before : List StyleChange} {opened run : OpenRun}
    (h : Draft.Resumes before opened run contents.text.head
      (Draft.ofRow contents.openRun contents.text.head row) (Draft.ofRow run contents.text.head row))
    (hrun : (Draft.ofRow run contents.text.head row).changes = [] → run = opened) :
    (contents.endRuns before run).freeze row = contents.freeze row := by
  have hbytes := length_flatMap_of_forall StyleChange.length_encode before
  unfold freeze endRuns
  dsimp only
  generalize Draft.ofRow contents.openRun contents.text.head row = draft at *
  generalize Draft.ofRow run contents.text.head row = draft' at *
  have hopen : draft'.run = draft.run := by
    by_cases hchanges : draft'.changes = []
    · rw [(h.run_eq hchanges).1, (h.run_eq hchanges).2, hrun hchanges]
    · exact h.run_eq_of_ne hchanges
  have hentry : draft'.entry contents.text.head
        (contents.attributes.append (before.flatMap StyleChange.encode)).head row.softWrapped
      = draft.entry contents.text.head contents.attributes.head row.softWrapped := by
    simp only [Draft.entry, h.leading_eq, h.ascii_eq, LogContents.head_append, hbytes,
      Option.getD_some, Nat.zero_mul, Nat.add_zero]
  have happend : (contents.attributes.append (before.flatMap StyleChange.encode)).append
        draft'.changeBytes
      = contents.attributes.append draft.changeBytes := by
    simp only [LogContents.append, Draft.changeBytes, h.changes_eq, List.flatMap_append,
      List.append_assoc]
  rw [hentry, happend, hopen, h.text_eq]

namespace Holds

variable {first : Nat} {frozen : List FrozenRow} {changes : List StyleChange}

theorem rewind_freeze (h : contents.Holds first frozen changes) {before later : List StyleChange}
    (hchanges : (Draft.ofRow contents.openRun contents.text.head row).changes = before ++ later)
    (hearlier : ∀ change ∈ changes ++ before, change.textEnd.toNat ≤ contents.text.head)
    (hlater : ∀ change ∈ later.head?, contents.text.head < change.textEnd.toNat) :
    (contents.freeze row).rewind (changes ++ (before ++ later)) (first + frozen.length)
        contents.text.head
      =
    contents.endRuns before (reopened contents.text.tail (changes ++ before ++ later)
      (contents.freeze row).openRun contents.text.head) := by
  have hcut : contents.attributes.tail + (changes ++ before).length * StyleChange.size
      = contents.attributes.head + (before.flatMap StyleChange.encode).length := by
    rw [h.head_attributes, List.length_append, Nat.add_mul, Nat.add_assoc,
      length_flatMap_of_forall StyleChange.length_encode before]
  have hattributes : (contents.freeze row).attributes
      = contents.attributes.append
        (before.flatMap StyleChange.encode ++ later.flatMap StyleChange.encode) := by
    rw [← List.flatMap_append, ← hchanges]
    rfl
  have htail : (contents.freeze row).attributes.tail = contents.attributes.tail := rfl
  have hrows : (contents.freeze row).rows.truncate contents.rows.head = contents.rows :=
    LogContents.truncate_append_head _ _
  have htext : (contents.freeze row).text.truncate contents.text.head = contents.text :=
    LogContents.truncate_append_head _ _
  unfold ArchiveContents.rewind
  rw [← List.append_assoc, findIdx_append_of_le hearlier hlater, htail, hcut, hattributes,
    LogContents.truncate_append_append, ← h.head_rows, hrows, htext]
  rfl

theorem textEnd_le_head (h : contents.Holds first frozen changes) :
    ∀ change ∈ changes, change.textEnd.toNat ≤ contents.text.head := by
  intro change hchange
  exact Nat.le_trans (h.runs.textEnd_le_start hchange) h.runs.start_le_high

theorem rewind_freeze_of_leads_nil (h : contents.Holds first frozen changes)
    (hleads : row.leads = []) :
    (Draft.ofRow contents.openRun contents.text.head row).changes = []
      ∧ (contents.freeze row).rewind changes (first + frozen.length) contents.text.head
        = contents := by
  obtain ⟨hchanges, hopen⟩ :
      (Draft.ofRow contents.openRun contents.text.head row).changes = []
        ∧ (contents.freeze row).openRun = contents.openRun := by
    unfold ArchiveContents.freeze
    rw [Draft.ofRow_eq, hleads, Draft.close]
    split <;> exact ⟨rfl, rfl⟩
  have hearlier : ∀ change ∈ changes ++ [], change.textEnd.toNat ≤ contents.text.head := by
    rw [List.append_nil]
    exact h.textEnd_le_head
  have hnil : (Draft.ofRow contents.openRun contents.text.head row).changes = [] ++ [] := hchanges
  have hrewind := h.rewind_freeze hnil hearlier (by simp)
  rw [(reopened_append_of_le contents.text.tail_le hearlier (by simp) _).1 rfl, hopen,
    endRuns_nil] at hrewind
  refine ⟨hchanges, ?_⟩
  rwa [List.append_nil, List.append_nil] at hrewind

theorem exists_rewind_freeze (h : contents.Holds first frozen changes)
    (hrange : (contents.freeze row).InRange) :
    ∃ before run,
      (contents.freeze row).rewind
          (changes ++ (Draft.ofRow contents.openRun contents.text.head row).changes)
          (first + frozen.length) contents.text.head
        = contents.endRuns before run
      ∧ (contents.endRuns before run).freeze row = contents.freeze row := by
  cases hleads : row.leads with
  | nil =>
    obtain ⟨hchanges, hrewind⟩ := h.rewind_freeze_of_leads_nil hleads
    refine ⟨[], contents.openRun, ?_, ?_⟩
    · rw [hchanges, List.append_nil, hrewind, endRuns_nil]
    · rw [endRuns_nil]
  | cons lead leads =>
    obtain ⟨before, opened, hstyle, hopened, hbefore, hresumes⟩ :=
      Draft.exists_resumes contents.openRun h.runs.start_le_high hleads
    have hsize : contents.text.head
        + (Draft.ofRow contents.openRun contents.text.head row).text.utf8ByteSize < 2 ^ 64 := by
      simpa [ArchiveContents.freeze] using hrange.1
    have hearlier : ∀ change ∈ changes ++ before, change.textEnd.toNat ≤ contents.text.head :=
      List.forall_mem_append.mpr ⟨h.textEnd_le_head, hbefore⟩
    -- Which changes the row has does not depend on where its first run starts.
    have hdraft := hresumes { style := lead.style, start := contents.text.head } rfl (Nat.le_refl _)
    generalize Draft.ofRow { style := lead.style, start := _ } _ row = draft at hdraft
    have hlater := hdraft.lt_textEnd hsize
    have hrewind := h.rewind_freeze hdraft.changes_eq hearlier hlater
    obtain ⟨hnone, hsome⟩ := reopened_append_of_le contents.text.tail_le hearlier hlater
      (contents.freeze row).openRun
    generalize reopened _ _ _ _ = run at hrewind hnone hsome
    replace hnone : draft.changes = [] → run = opened := by
      intro hchanges
      rw [hnone hchanges]
      exact (hdraft.run_eq hchanges).1
    have hrun : run.style = lead.style ∧ run.start ≤ contents.text.head := by
      cases hchanges : draft.changes with
      | nil => exact hnone hchanges ▸ ⟨hstyle, hopened⟩
      | cons change later =>
        have hhead : change ∈ draft.changes.head? := by simp [hchanges]
        rw [(hsome change hhead).1, (hdraft.head_eq change hhead).1]
        exact ⟨hstyle, (hsome change hhead).2⟩
    have hagain := hresumes run hrun.1 hrun.2
    have hsame := List.append_cancel_left (hagain.changes_eq.symm.trans hdraft.changes_eq)
    refine ⟨before, run, ?_, ?_⟩
    · rw [hdraft.changes_eq, hrewind]
    · exact freeze_endRuns hagain (hsame ▸ hnone)

end Holds

end ArchiveContents

namespace Archive

/--
Thawing the row that was frozen last gives back that row, if it is well-formed, and takes the row log
and the text log back to what they held before. The older rows are read as they were. The changes of
style that ended the text before the row may stay behind, but freezing the row again leaves the same
in all three logs, and the same open run, as the first time.
-/
theorem thaw_freeze {σ : Type} [ByteLog σ] [ReliableLog σ] {archive : Archive σ} {first next : Nat}
    (harchive : Reachable archive first next) {row : Row} (hrow : row.FlagsDefined)
    (hwell : row.WellFormed) :
    ∃ frozen, Archive.freeze row archive = .ok () frozen
      ∧ (frozen.InRange →
        ∃ thawed, Archive.thaw next frozen = .ok row thawed
          ∧ thawed.contents.rows = archive.contents.rows
          ∧ thawed.contents.text = archive.contents.text
          ∧ (∀ index, first ≤ index → index < next →
            ∃ old, (Archive.read index).run' archive = some old
              ∧ (Archive.read index).run' thawed = some old)
          ∧ ∃ again, Archive.freeze row thawed = .ok () again
            ∧ again.contents = frozen.contents) := by
  obtain ⟨rows, changes, hholds, rfl⟩ := harchive.holdsRows
  obtain ⟨_, frozen, hrun, hfrozen⟩ :=
    (ends_freeze archive row).exists_ok fun e _ herr => not_isFault e herr.1
  refine ⟨frozen, hrun, ?_⟩
  intro hrange
  rw [inRange_iff, hfrozen] at hrange
  obtain ⟨entry, hstart, hholds'⟩ := hholds.freeze_draft hrow hrange
  obtain ⟨before, run, hrewind, hagain⟩ := hholds.exists_rewind_freeze hrange
  have hnew : (rows ++ [⟨entry, row.styled⟩])[rows.length]? = some ⟨entry, row.styled⟩ := by
    simp
  have hrewound := hholds'.rewind hnew
  rw [FrozenRow.start, hstart, hrewind] at hrewound
  rw [← hfrozen] at hholds'
  obtain ⟨_, thawed, hthaw, rfl, hthawed⟩ :=
    (hholds'.ends_thaw frozen hnew).exists_ok fun e _ herr => not_isFault e herr.1
  rw [hfrozen, FrozenRow.start, hstart, hrewind] at hthawed
  obtain ⟨_, again, hrun', hcontents⟩ :=
    (ends_freeze thawed row).exists_ok fun e _ herr => not_isFault e herr.1
  refine ⟨thawed, ?_, ?_, ?_, ?_, again, hrun', ?_⟩
  · rw [hthaw, hwell.toRow_styled]
  · rw [hthawed, ArchiveContents.endRuns]
  · rw [hthawed, ArchiveContents.endRuns]
  · intro index hfirst hindex
    obtain ⟨k, old, rfl, hk⟩ := exists_getElem? hfirst hindex
    have hlt := (List.getElem?_eq_some_iff.mp hk).1
    have hk' : (List.take rows.length (rows ++ [⟨entry, row.styled⟩]))[k]? = some old := by
      rw [List.take_left, hk]
    rw [← hthawed] at hrewound
    exact ⟨_, (hholds.reads_read hk).run'_eq, (hrewound.reads_read hk').run'_eq⟩
  · rw [hcontents, hthawed, hagain, hfrozen]

/--
The second row has another style, so that the end of the run before it stays behind.
-/
theorem thaw_freeze_style :
    let plain : Row := { cells := [Cell.lead 'x' {}], softWrapped := true }
    let bold : Row := { cells := Cell.glyph 'y' { flags := 1, columns := 2 } }
    let archive := final (Archive.freeze plain) (ofLogs default default default : Archive MemoryLog)
    let frozen := final (Archive.freeze bold) archive
    let thawed := final (Archive.thaw 1) frozen
    let again := final (Archive.freeze bold) thawed
    Archive.thaw 1 frozen = .ok bold thawed
      ∧ thawed.contents.text = archive.contents.text
      ∧ thawed.contents.attributes ≠ archive.contents.attributes
      ∧ again.contents = frozen.contents := by
  intro plain bold archive frozen thawed again
  have hplain : Archive.freeze plain (ofLogs default default default) = .ok () archive := rfl
  have hreachable := (Reachable.ofLogs (default : MemoryLog) default default).freeze
    (by decide : plain.FlagsDefined) hplain (by rw [inRange_iff]; decide +kernel)
  obtain ⟨_, hfrozen, hthaw⟩ :=
    thaw_freeze hreachable (by decide : bold.FlagsDefined) (by decide)
  obtain rfl : frozen = _ := final_eq_of_ok hfrozen
  obtain ⟨_, hthawed, -, htext, -, _, hagain, hcontents⟩ :=
    hthaw (by rw [inRange_iff]; decide +kernel)
  obtain rfl : thawed = _ := final_eq_of_ok hthawed
  obtain rfl : again = _ := final_eq_of_ok hagain
  exact ⟨hthawed, htext, by decide +kernel, hcontents⟩

end Archive

end Scrollback
