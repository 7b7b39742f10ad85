import Scrollback.Proofs.Row.Built
import Scrollback.Proofs.Row.Locate
import Scrollback.Ring.Load

/-!
This module contains the proof that the rows of plain text are made of complete glyphs, and that splitting
them anew gives the rows of the same text in another number of columns.
-/

namespace Scrollback

namespace Row

structure Plain (row : Row) : Prop where
  wellFormed : row.WellFormed
  flagsDefined : row.FlagsDefined
  softWrapped_eq : row.softWrapped = false

namespace Plain

variable {row : Row}

theorem pushMark (h : row.Plain) (char : Char) {style : Style} (hstyle : style.FlagsDefined) :
    (row.pushMark char style).Plain where
  wellFormed := h.wellFormed.pushMark char style
  flagsDefined := h.flagsDefined.pushMark char hstyle
  softWrapped_eq := by rw [softWrapped_pushMark, h.softWrapped_eq]

theorem pushGlyph (h : row.Plain) (char : Char) {style : Style} (hstyle : style.FlagsDefined) :
    (row.pushGlyph char style).Plain where
  wellFormed := h.wellFormed.pushGlyph char style
  flagsDefined := h.flagsDefined.pushGlyph char hstyle
  softWrapped_eq := by rw [softWrapped_pushGlyph, h.softWrapped_eq]

theorem pushText (h : row.Plain) (rules : TextRules) (text : List Char) {style : Style}
    (hstyle : style.FlagsDefined) : (row.pushText rules text style).Plain := by
  have hbase (base : Char) : (style.withColumns (rules.columns base)).FlagsDefined := hstyle
  exact pushText_keeps (fun _ base hrow => hrow.pushGlyph base (hbase base))
    (fun _ mark hrow => hrow.pushMark mark hstyle) h text

theorem fill_blank (h : row.Plain) (size : Nat) : (row.fill Cell.blank size).Plain := by
  obtain ⟨hleads, hwellFormed⟩ := h.wellFormed.fill_blank size
  refine ⟨hwellFormed, ?_, h.softWrapped_eq⟩
  rw [FlagsDefined, hleads, List.forall_mem_append]
  refine ⟨h.flagsDefined, fun lead hlead => ?_⟩
  rw [List.eq_of_mem_replicate hlead]
  exact (by decide : ({} : Style).FlagsDefined)

end Plain

theorem plain_empty : empty.Plain :=
  ⟨wellFormed_empty, by decide, rfl⟩

theorem plain_ofLine (rules : TextRules) (line : List Char) : (ofLine rules line).Plain := by
  have hstyle : ({} : Style).FlagsDefined := by decide
  unfold ofLine
  split
  · exact plain_empty
  · apply List.foldlRecOn
    · exact plain_empty.pushText rules _ hstyle
    · exact fun row hrow part _ => (hrow.fill_blank _).pushText rules _ hstyle

theorem wrap?_eq_some (row : Row) {columns : Nat} (h : columns < 2 ^ 58) :
    row.wrap? columns = some (row.wrap columns) := by
  have hfits : fits (max columns 1) = true := by
    rw [fits, decide_eq_true_iff]
    simp only [cellSize, maxArraySize]
    omega
  rw [wrap?, if_pos hfits]

theorem exists_ofPieces_eq (softWrapped : Bool) (piece : List Cell) (later : List (List Cell)) :
    ∃ init last, ofPieces softWrapped piece later = init ++ [last]
      ∧ (∀ row ∈ init, row.softWrapped = true) ∧ last.softWrapped = softWrapped := by
  induction later generalizing piece with
  | nil => exact ⟨[], _, rfl, by simp, rfl⟩
  | cons next later ih =>
    obtain ⟨init, last, heq, hinit, hlast⟩ := ih next
    refine ⟨{ cells := piece, softWrapped := true } :: init, last, ?_, ?_, hlast⟩
    · rw [ofPieces, heq, List.cons_append]
    · rw [List.forall_mem_cons]
      exact ⟨rfl, hinit⟩

theorem exists_wrap_eq (row : Row) (columns : Nat) :
    ∃ init last, row.wrap columns = init ++ [last] ∧ (∀ row ∈ init, row.softWrapped = true)
      ∧ last.softWrapped = row.softWrapped := by
  rw [wrap]
  apply exists_ofPieces_eq

theorem join_wrap (row : Row) (columns : Nat) : join (row.wrap columns) = row := by
  obtain ⟨init, last, heq, -, hlast⟩ := row.exists_wrap_eq columns
  have hcells := row.cells_join_wrap columns
  have hsoftWrapped : (join (row.wrap columns)).softWrapped = row.softWrapped := by
    rw [heq, softWrapped_join_concat, hlast]
  exact congrArg₂ Row.mk hcells hsoftWrapped

theorem text_join (rows : List Row) : (join rows).text = rows.flatMap text :=
  List.flatMap_assoc

theorem flatMap_line_wrap (row : Row) (columns : Nat) : (row.wrap columns).flatMap line = row.line := by
  have htext := text_join (row.wrap columns)
  obtain ⟨init, last, heq, hinit, hlast⟩ := row.exists_wrap_eq columns
  have hline : init.flatMap line = init.flatMap text :=
    List.flatMap_congr fun row hrow => if_pos (hinit row hrow)
  rw [join_wrap, heq, List.flatMap_append, List.flatMap_singleton] at htext
  rw [heq, List.flatMap_append, List.flatMap_singleton, hline, line, line, hlast, htext]
  split
  · rfl
  · rw [List.append_assoc]

theorem FlagsDefined.wrap {row : Row} (h : row.FlagsDefined) (columns : Nat) :
    ∀ piece ∈ row.wrap columns, piece.FlagsDefined := by
  intro piece hpiece lead hlead
  apply h
  rw [← row.join_wrap columns, leads_join]
  exact List.mem_flatMap_of_mem hpiece hlead

theorem rewrap_flatMap_wrap {rows : List Row} (h : ∀ row ∈ rows, row.softWrapped = false)
    (columns columns' : Nat) :
    rewrap (rows.flatMap (·.wrap columns)) columns' = rows.flatMap (·.wrap columns') := by
  induction rows with
  | nil => rfl
  | cons row rows ih =>
    rw [List.forall_mem_cons] at h
    obtain ⟨init, last, heq, hinit, hlast⟩ := row.exists_wrap_eq columns
    have hrest : last.softWrapped = true → rows.flatMap (·.wrap columns) = [] := by
      rw [hlast, h.1]
      exact fun hfalse => absurd hfalse Bool.false_ne_true
    rw [List.flatMap_cons, heq, rewrap_append hinit hrest, ← heq, join_wrap, ih h.2,
      List.flatMap_cons]

end Row

namespace Ring

variable (rules : TextRules) (columns : Nat) (text : List Char)

theorem rowsOfText?_eq_some {columns : Nat} (h : columns < 2 ^ 58) :
    rowsOfText? rules columns text = some (rowsOfText rules columns text) := by
  have hlines : (Text.lines text).mapM (fun line => (Row.ofLine rules line).wrap? columns)
      = some ((Text.lines text).map fun line => (Row.ofLine rules line).wrap columns) := by
    simp only [Row.wrap?_eq_some _ h]
    exact List.mapM_pure
  rw [rowsOfText?, hlines, rowsOfText, List.flatMap_def]
  rfl

theorem rewrap_rowsOfText (columns' : Nat) :
    Row.rewrap (rowsOfText rules columns text) columns' = rowsOfText rules columns' text := by
  have hrows (columns : Nat) : rowsOfText rules columns text
      = ((Text.lines text).map (Row.ofLine rules)).flatMap (·.wrap columns) := by
    rw [rowsOfText, List.flatMap_map]
  rw [hrows, hrows, Row.rewrap_flatMap_wrap]
  rw [List.forall_mem_map]
  exact fun line _ => (Row.plain_ofLine rules line).softWrapped_eq

theorem flatMap_line_rowsOfText :
    (rowsOfText rules columns text).flatMap Row.line
      =
    (Text.lines text).flatMap fun line => (Row.ofLine rules line).text ++ ['\n'] := by
  rw [rowsOfText, List.flatMap_assoc]
  apply List.flatMap_congr
  intro line _
  rw [Row.flatMap_line_wrap, Row.line, (Row.plain_ofLine rules line).softWrapped_eq]
  rfl

theorem wellFormed_of_mem_rowsOfText : ∀ row ∈ rowsOfText rules columns text, row.WellFormed := by
  intro row hrow
  obtain ⟨line, -, hrow⟩ := List.mem_flatMap.mp hrow
  exact (Row.plain_ofLine rules line).wellFormed.wrap columns row hrow

theorem flagsDefined_of_mem_rowsOfText :
    ∀ row ∈ rowsOfText rules columns text, row.FlagsDefined := by
  intro row hrow
  obtain ⟨line, -, hrow⟩ := List.mem_flatMap.mp hrow
  exact (Row.plain_ofLine rules line).flagsDefined.wrap columns row hrow

theorem softWrapped_getLast_rowsOfText {last : Row}
    (h : (rowsOfText rules columns text).getLast? = some last) : last.softWrapped = false := by
  rcases List.eq_nil_or_concat (Text.lines text) with hnil | ⟨lines, line, hlines⟩
  · rw [rowsOfText, hnil] at h
    contradiction
  · obtain ⟨init, piece, heq, -, hpiece⟩ := (Row.ofLine rules line).exists_wrap_eq columns
    rw [rowsOfText, hlines, List.concat_eq_append, List.flatMap_append, List.flatMap_singleton, heq,
      ← List.append_assoc, List.getLast?_concat, Option.some.injEq] at h
    rw [← h, hpiece, (Row.plain_ofLine rules line).softWrapped_eq]

end Ring

end Scrollback
