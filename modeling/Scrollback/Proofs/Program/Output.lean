import Scrollback.Program.Basic
import Scrollback.Proofs.Log.File
import Scrollback.Proofs.Ring.Pushed

/-!
This module contains the proof that the program prints the text of the lines that it was given, in
whichever way the rows are kept and split in between.
-/

namespace Scrollback

namespace Ring.Shows

variable {σ : Type} [ByteLog σ] [ReliableLog σ] {ring : Ring σ}

theorem rewrap_ofRows {maxRows : Nat} {rows : List Row}
    (h : ring.Shows (RowList.ofRows maxRows rows)) (hrows : ∀ row ∈ rows, row.WellFormed)
    (hrange : ring.FreezesInRange) (hsize : rows.length ≤ maxRows) (columns : Nat)
    (markers : List Position) :
    ∃ markers' after, rewrap columns markers ring = .ok markers' after
      ∧ after.Shows (RowList.ofRows maxRows (Row.rewrap rows columns)) := by
  obtain ⟨markers', after, hrun, -, hafter⟩ :=
    (h.ends_rewrap_moveMarkers (RowList.wellFormed_ofRows hrows) hrange columns markers).exists_ok
      fun e _ herr => Archive.not_isFault e herr.1
  rw [RowList.rewrap_ofRows (Nat.le_trans hsize (Nat.le_max_left maxRows 1))] at hafter
  exact ⟨markers', after, hrun, hafter⟩

theorem writeContents_eq {list : RowList} (h : ring.Shows list) (hlist : list.WellFormed) :
    ∃ after, writeContents (ring, ByteArray.empty)
      = .ok () (after, (String.ofList (list.rows.flatMap Row.line)).toUTF8) := by
  have hends := h.ends_writeTo hlist (Sink.tracks_appended ByteArray.empty) (List.append_nil _).symm
  obtain ⟨written, after, hrun, -, hwritten⟩ := hends.exists_ok (by
    rintro e _ ⟨hfault | ⟨_, _, hfalse⟩, -⟩
    · exact Archive.not_isFault e hfault
    · exact hfalse)
  unfold writeTo at hrun
  split at hrun
  · next after' written' heq =>
    obtain ⟨rfl, rfl⟩ := EStateM.Result.ok.inj hrun
    rw [hwritten.eq_append, ByteArray.empty_append] at heq
    exact ⟨after', heq⟩
  · contradiction

end Ring.Shows

namespace Program

def plainText (rules : TextRules) (text : String) : String :=
  String.ofList
    ((Text.lines text.toList).flatMap fun line => (Row.ofLine rules line).text ++ ['\n'])

variable (rules : TextRules) (settings : Settings) (options : Options) (text : String)

theorem printed_eq {σ : Type} [ByteLog σ] [ReliableLog σ] {ring : Ring σ} {maxRows columns : Nat}
    (h : ring.Shows (RowList.ofRows maxRows (Ring.rowsOfText rules columns text.toList)))
    (hsize : (Ring.rowsOfText rules columns text.toList).length ≤ maxRows) :
    ∃ after, Ring.writeContents (ring, ByteArray.empty)
      = .ok () (after, (plainText rules text).toUTF8) := by
  have hrows := Ring.wellFormed_of_mem_rowsOfText rules columns text.toList
  obtain ⟨after, hwrite⟩ := h.writeContents_eq (RowList.wellFormed_ofRows hrows)
  rw [RowList.rows_ofRows (Nat.le_trans hsize (Nat.le_max_left maxRows 1)),
    Ring.flatMap_line_rowsOfText] at hwrite
  exact ⟨after, hwrite⟩

theorem present_eq {σ : Type} [ByteLog σ] [ReliableLog σ] (rows texts attributes : σ)
    (hcolumns : settings.columns < 2 ^ 58) (hplain : options.rows = false)
    (hloaded : (Ring.rowsOfText rules settings.columns text.toList).length ≤ settings.maxRows)
    (hrewrapped : ∀ columns ∈ options.rewrap,
      (Row.rewrap (Ring.rowsOfText rules settings.columns text.toList) columns).length
        ≤ settings.maxRows)
    (hsize : StyleChange.size * (plainText rules text).utf8ByteSize < 2 ^ 64) :
    present rules settings options text
        (Ring.ofLogs settings.maxRows settings.windowRows rows texts attributes)
      =
    .ok (plainText rules text).toUTF8 := by
  rw [plainText, Text.utf8ByteSize_eq, String.toList_ofList,
    ← Ring.flatMap_line_rowsOfText rules settings.columns] at hsize
  obtain ⟨cursor, loaded, hload, hshows, hfreezes⟩ :=
    Ring.exists_load_freezesInRange rules hcolumns text.toList settings.maxRows settings.windowRows
      rows texts attributes hloaded hsize
  unfold present
  rw [hload, hplain]
  simp only [bind, Except.bind, if_neg Bool.false_ne_true]
  cases hoption : options.rewrap with
  | none =>
    obtain ⟨_, hwrite⟩ := printed_eq rules text hshows hloaded
    dsimp only
    rw [hwrite]
  | some columns =>
    obtain ⟨markers, rewrapped, hrewrap, hshows⟩ := hshows.rewrap_ofRows
      (Ring.wellFormed_of_mem_rowsOfText rules settings.columns text.toList) hfreezes hloaded
      columns [cursor]
    have hfits := hrewrapped columns hoption
    rw [Ring.rewrap_rowsOfText] at hshows hfits
    obtain ⟨_, hwrite⟩ := printed_eq rules text hshows hfits
    dsimp only
    rw [hrewrap]
    dsimp only
    rw [hwrite]

/--
The output is the text that was loaded if no row is lost, whatever the number of columns, the size of the
window, the kind of storage and the number of columns that the rows are brought to. The offsets in the
logs are numbers of 64 bits, which bounds the size of the text, and rows and the window are no larger than
an array can be.
-/
theorem presentIn_eq_plainText (hcolumns : settings.columns < 2 ^ 58)
    (hwindow : settings.windowRows ≤ 2 ^ 57) (hplain : options.rows = false)
    (hloaded : (Ring.rowsOfText rules settings.columns text.toList).length ≤ settings.maxRows)
    (hrewrapped : ∀ columns ∈ options.rewrap,
      (Row.rewrap (Ring.rowsOfText rules settings.columns text.toList) columns).length
        ≤ settings.maxRows)
    (hsize : StyleChange.size * (plainText rules text).utf8ByteSize < 2 ^ 64) :
    presentIn rules settings options text = .ok (plainText rules text).toUTF8 := by
  unfold presentIn
  split
  · rw [Ring.empty, Ring.create_eq_ok _ hwindow]
    exact present_eq rules settings options text _ _ _ hcolumns hplain hloaded hrewrapped hsize
  · rw [Ring.empty, Ring.create_eq_ok _ hwindow]
    exact present_eq rules settings options text _ _ _ hcolumns hplain hloaded hrewrapped hsize

/--
A wide character with a mark, a tab and a blank line, in ten columns and then in three. All rows but the
newest are in files when they are split anew.
-/
theorem presentIn_eq_plainText_file :
    let rules := TextRules.ofWidth fun char =>
      some (if char = 'w' then 2 else if char = '^' then 0 else 1)
    presentIn rules { maxRows := 5, windowRows := 1, storage := .file, columns := 10 }
        { rewrap := some 3 } "aw^\tb\r\n\nc"
      = .ok "aw^     b\n\nc\n".toUTF8 := by
  intro rules
  have hoptions : ({ rewrap := some 3 } : Options).rows = false := rfl
  have hprinted : plainText rules "aw^\tb\r\n\nc" = "aw^     b\n\nc\n" := by decide +kernel
  rw [← hprinted]
  exact presentIn_eq_plainText rules _ _ _ (by decide) (by decide) hoptions (by decide +kernel)
    (by decide +kernel) (by decide +kernel)

/--
Nothing is printed if a row with as many columns as can be counted would be needed, even for a single
letter.
-/
theorem presentIn_capacity :
    presentIn (TextRules.ofWidth fun _ => some 1) { columns := 18446744073709551615 } {} "a"
      = .error (.load .capacity) := by
  rfl

end Program

end Scrollback
