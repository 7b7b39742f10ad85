import Scrollback.Proofs.Row.Built
import Scrollback.Proofs.Row.Line

/-!
This module contains the expansion of tabs: the blanks that a tab leaves in the row of a line lead to the
next tab stop, counted in columns.
-/

namespace Scrollback

namespace Text

variable (separator : Char)

theorem splitOn_eq (text : List Char) : splitOn separator text = text.splitOn separator := by
  induction text with
  | nil => rfl
  | cons char text ih =>
    rw [List.splitOn_cons_eq_if_modifyHead, ← ih]
    simp only [splitOn, List.foldr_cons, beq_iff_eq]
    split
    · rfl
    · -- There is a first part that the character belongs to.
      have hne : splitOn separator text ≠ [] := by
        rw [ih]
        apply List.splitOn_ne_nil
      obtain ⟨part, parts, hparts⟩ := List.exists_cons_of_ne_nil hne
      rw [splitOn] at hparts
      rw [hparts]
      rfl

theorem not_mem_of_mem_splitOn (text : List Char) :
    ∀ part ∈ text.splitOn separator, separator ∉ part := by
  induction text with
  | nil => simp
  | cons char text ih =>
    rw [List.splitOn_cons_eq_if_modifyHead]
    obtain ⟨part, parts, hparts⟩ := List.exists_cons_of_ne_nil (text.splitOn_ne_nil separator)
    rw [hparts, List.forall_mem_cons] at ih
    split
    · rw [hparts, List.forall_mem_cons, List.forall_mem_cons]
      exact ⟨List.not_mem_nil, ih⟩
    · next hne =>
      rw [hparts, List.modifyHead_cons, List.forall_mem_cons, List.mem_cons, not_or]
      exact ⟨⟨fun heq => hne (beq_iff_eq.mpr heq.symm), ih.1⟩, ih.2⟩

theorem exists_intercalate_eq (text : List Char) :
    ∃ first parts, text = [separator].intercalate (first :: parts)
      ∧ ∀ part ∈ first :: parts, separator ∉ part := by
  obtain ⟨first, parts, hparts⟩ := List.exists_cons_of_ne_nil (text.splitOn_ne_nil separator)
  refine ⟨first, parts, ?_, ?_⟩
  · rw [← hparts, List.intercalate_splitOn]
  · rw [← hparts]
    exact not_mem_of_mem_splitOn separator text

end Text

/--
The columns that are taken up after a group of characters that are read as one. It is as wide as its
first character, and takes a column at the start of a row even if that is none wide.
-/
def TextRules.columnsAfterCluster (rules : TextRules) (columns : Nat) : List Char → Nat
  | [] => columns
  | base :: _ => max 1 (columns + (rules.columns base).toNat)

def TextRules.columnsAfter (rules : TextRules) (columns : Nat) (text : List Char) : Nat :=
  (rules.clusters text).foldl rules.columnsAfterCluster columns

namespace Row

variable {rules : TextRules} {row : Row} {style : Style}

namespace WellFormed

theorem size_pushMark (h : row.WellFormed) (char : Char) (style : Style) :
    (row.pushMark char style).size = max 1 row.size := by
  unfold Row.pushMark
  split
  · next after hmark =>
    have hlength := congrArg List.length (styles_markLast? hmark)
    rw [List.length_map, List.length_map] at hlength
    -- There is no glyph to mark in a row without cells.
    have hpos : row.cells.length ≠ 0 := by
      intro hzero
      rw [List.eq_nil_of_length_eq_zero hzero] at hmark
      contradiction
    simp only [size, hlength]
    omega
  · next hnone =>
    have hleads : row.leads = [] := by
      rw [leads, List.filter_eq_nil_iff]
      intro cell hcell
      simp [markLast?_eq_none.mp hnone cell hcell]
    have hcells : row.cells = [] := by rw [h.cells_eq, hleads, List.flatMap_nil]
    simp [size, Row.push, hcells]

theorem size_pushGlyph (h : row.WellFormed) (char : Char) (style : Style) :
    (row.pushGlyph char style).size = max 1 (row.size + style.columns.toNat) := by
  unfold Row.pushGlyph
  split
  · next hzero =>
    rw [h.size_pushMark, hzero]
    rfl
  · next hne =>
    have hpos : style.columns.toNat ≠ 0 := fun hzero => hne (UInt8.toNat_inj.mp hzero)
    simp only [size, Cell.glyph, List.length_append, List.length_cons, List.length_replicate]
    omega

theorem size_foldl_pushMark (h : row.WellFormed) (hsize : row.size ≠ 0) (marks : List Char)
    (style : Style) : (marks.foldl (·.pushMark · style) row).size = row.size := by
  induction marks generalizing row with
  | nil => rfl
  | cons mark marks ih =>
    have hmark := h.size_pushMark mark style
    rw [List.foldl_cons, ih (h.pushMark mark style) (by omega), hmark]
    omega

theorem size_pushCluster (h : row.WellFormed) (rules : TextRules) (style : Style)
    (cluster : List Char) :
    (row.pushCluster rules style cluster).size = rules.columnsAfterCluster row.size cluster := by
  cases cluster with
  | nil => rfl
  | cons base marks =>
    have hbase := h.size_pushGlyph base (style.withColumns (rules.columns base))
    rw [Row.pushCluster, pushChar, size_foldl_pushMark (h.pushGlyph base _)]
    · exact hbase
    · rw [hbase]
      omega

theorem size_pushText (h : row.WellFormed) (rules : TextRules) (text : List Char) (style : Style) :
    (row.pushText rules text style).size = rules.columnsAfter row.size text := by
  unfold Row.pushText TextRules.columnsAfter
  generalize rules.clusters text = clusters
  induction clusters generalizing row with
  | nil => rfl
  | cons cluster clusters ih =>
    rw [List.foldl_cons, ih (h.pushCluster rules style cluster), h.size_pushCluster,
      List.foldl_cons]

end WellFormed

def HasStyle (row : Row) (style : Style) : Prop :=
  ∀ cell ∈ row.cells, cell.style = style.withColumns cell.style.columns

instance (row : Row) (style : Style) : Decidable (row.HasStyle style) :=
  inferInstanceAs (Decidable (∀ _ ∈ _, _))

theorem hasStyle_iff :
    row.HasStyle style
      ↔
    ∀ own ∈ row.cells.map (fun cell => (cell.fragment, cell.style)),
      own.2 = style.withColumns own.2.columns := by
  simp [HasStyle]

namespace HasStyle

theorem of_append {before after : Row} {cells : List Cell} (h : before.HasStyle style)
    (hcells : after.cells = before.cells ++ cells)
    (hstyle : ∀ cell ∈ cells, cell.style = style.withColumns cell.style.columns) :
    after.HasStyle style := by
  rw [HasStyle, hcells, List.forall_mem_append]
  exact ⟨h, hstyle⟩

theorem pushMark (h : row.HasStyle style) (char : Char) (columns : UInt8) :
    (row.pushMark char (style.withColumns columns)).HasStyle style := by
  unfold Row.pushMark
  split
  · next hmark =>
    rw [hasStyle_iff] at h ⊢
    rwa [styles_markLast? hmark]
  · exact h.of_append rfl (by simp [Cell.lead, Style.withColumns])

theorem pushGlyph (h : row.HasStyle style) (char : Char) (columns : UInt8) :
    (row.pushGlyph char (style.withColumns columns)).HasStyle style := by
  unfold Row.pushGlyph
  split
  · exact h.pushMark char columns
  · apply h.of_append rfl
    rw [Cell.glyph, List.forall_mem_cons]
    refine ⟨rfl, fun cell hcell => ?_⟩
    rw [List.eq_of_mem_replicate hcell]
    rfl

theorem pushText (h : row.HasStyle style) (rules : TextRules) (text : List Char) :
    (row.pushText rules text style).HasStyle style :=
  pushText_keeps (p := (·.HasStyle style)) (fun _ char hrow => hrow.pushGlyph char _)
    (fun _ char hrow => hrow.pushMark char style.columns) h text

theorem fill_blank (h : row.HasStyle {}) (size : Nat) : (row.fill Cell.blank size).HasStyle {} := by
  apply h.of_append rfl
  intro cell hcell
  rw [List.eq_of_mem_replicate hcell]
  rfl

end HasStyle

def visible (part : List Char) : List Char :=
  part.filter fun char => !isControl char

def blanksToTabStop (row : Row) : Nat :=
  (row.size / tabWidth + 1) * tabWidth - row.size

theorem blanksToTabStop_spec (row : Row) :
    1 ≤ row.blanksToTabStop ∧ row.blanksToTabStop ≤ tabWidth
      ∧ tabWidth ∣ row.size + row.blanksToTabStop := by
  have hstop : row.size + row.blanksToTabStop = tabWidth * (row.size / tabWidth + 1) := by
    unfold blanksToTabStop tabWidth
    omega
  refine ⟨?_, ?_, row.size / tabWidth + 1, hstop⟩
  · unfold tabWidth at hstop
    omega
  · unfold tabWidth at hstop ⊢
    omega

theorem text_fillToTabStop (row : Row) :
    row.fillToTabStop.text = row.text ++ List.replicate row.blanksToTabStop ' ' := by
  have hblanks (count : Nat) :
      textOf (List.replicate count Cell.blank) = List.replicate count ' ' := by
    induction count with
    | zero => rfl
    | succ count ih =>
      rw [List.replicate_succ, textOf_cons, ih]
      rfl
  rw [← hblanks]
  exact textOf_append _ _

theorem size_fillToTabStop (row : Row) :
    row.fillToTabStop.size = row.size + row.blanksToTabStop := by
  simp [fillToTabStop, fill, size, blanksToTabStop]

theorem text_pushPart (rules : TextRules) (row : Row) (part : List Char) :
    (row.pushPart rules part).text = row.text ++ visible part :=
  text_pushText rules row _ _

def ofParts (rules : TextRules) (first : List Char) (parts : List (List Char)) : Row :=
  parts.foldl (fun row part => row.fillToTabStop.pushPart rules part) (empty.pushPart rules first)

variable {first : List Char} {parts : List (List Char)}

theorem ofLine_intercalate (h : ∀ part ∈ first :: parts, '\t' ∉ part) :
    ofLine rules (['\t'].intercalate (first :: parts)) = ofParts rules first parts := by
  rw [ofLine, Text.splitOn_eq, List.splitOn_intercalate '\t' h (List.cons_ne_nil first parts)]
  rfl

theorem ofParts_keeps {p : Row → Prop} (hempty : p empty)
    (hpart : ∀ row part, p row → p (row.pushPart rules part))
    (hfill : ∀ row, p row → p row.fillToTabStop) : p (ofParts rules first parts) := by
  apply List.foldlRecOn
  · exact hpart empty first hempty
  · exact fun row hrow part _ => hpart _ part (hfill row hrow)

theorem exists_text_ofParts (rules : TextRules) (first : List Char) (parts : List (List Char)) :
    ∃ blanks : List Nat, blanks.length = parts.length
      ∧ (ofParts rules first parts).text
        = visible first
          ++ (blanks.zip parts).flatMap (fun tab => List.replicate tab.1 ' ' ++ visible tab.2)
      ∧ ∀ index count, blanks[index]? = some count →
        count = (ofParts rules first (parts.take index)).blanksToTabStop := by
  induction parts using List.reverseRecOn with
  | nil =>
    refine ⟨[], rfl, ?_, by simp⟩
    rw [ofParts, List.foldl_nil, text_pushPart]
    exact (List.append_nil _).symm
  | append_singleton parts part ih =>
    obtain ⟨blanks, hlength, htext, hblanks⟩ := ih
    refine ⟨blanks ++ [(ofParts rules first parts).blanksToTabStop], ?_, ?_, ?_⟩
    · rw [List.length_append, List.length_append, hlength]
      rfl
    · rw [ofParts, List.foldl_concat, text_pushPart, text_fillToTabStop, ← ofParts, htext,
        List.zip_append hlength, List.flatMap_append]
      simp
    · intro index count hcount
      rcases lt_or_ge index blanks.length with hlt | hge
      · rw [List.getElem?_append_left hlt] at hcount
        rw [List.take_append_of_le_length (by omega), hblanks index count hcount]
      · rw [List.getElem?_append_right hge, List.getElem?_singleton] at hcount
        obtain ⟨hindex, rfl⟩ : index - blanks.length = 0
            ∧ (ofParts rules first parts).blanksToTabStop = count := by
          simpa [Option.ite_none_right_eq_some] using hcount
        rw [List.take_append_of_le_length (by omega), List.take_of_length_le (by omega)]

theorem isControl_of_mem_visible {part : List Char} :
    ∀ char ∈ visible part, isControl char = false := by
  intro char hchar
  simpa using List.of_mem_filter hchar

def columnsBefore (rules : TextRules) (first : List Char) (parts : List (List Char)) (tab : Nat) :
    Nat :=
  (ofLine rules (['\t'].intercalate (first :: parts.take tab))).size

theorem columnsBefore_eq (h : ∀ part ∈ first :: parts, '\t' ∉ part) (tab : Nat) :
    columnsBefore rules first parts tab = (ofParts rules first (parts.take tab)).size := by
  rw [columnsBefore, ofLine_intercalate]
  rw [List.forall_mem_cons] at h ⊢
  exact ⟨h.1, fun part hpart => h.2 part (List.mem_of_mem_take hpart)⟩

theorem columnsBefore_succ (h : ∀ part ∈ first :: parts, '\t' ∉ part) {tab : Nat} {part : List Char}
    (hpart : parts[tab]? = some part) :
    columnsBefore rules first parts (tab + 1)
      =
    rules.columnsAfter
      (columnsBefore rules first parts tab + (ofParts rules first (parts.take tab)).blanksToTabStop)
      (visible part) := by
  have hwellFormed : (ofParts rules first (parts.take tab)).WellFormed :=
    ofParts_keeps wellFormed_empty (fun _ _ hrow => hrow.pushText rules _ _)
      (fun _ hrow => (hrow.fill_blank _).2)
  rw [columnsBefore_eq h, columnsBefore_eq h, List.take_add_one, hpart, Option.toList_some, ofParts,
    List.foldl_concat, ← ofParts, ← size_fillToTabStop]
  exact (hwellFormed.fill_blank _).2.size_pushText rules _ _

/--
In the row for a line, every tab is replaced by the one to eight blanks that lead to the next tab stop.
These are counted in columns: a group of characters is as wide as its first one, and a mark on the glyph
before it is not wide at all.
-/
theorem ofLine_expands_tabs (rules : TextRules) (line : List Char) :
    (ofLine rules line).softWrapped = false
      ∧ (ofLine rules line).HasStyle {}
      ∧ (ofLine rules line).size = ((ofLine rules line).leads.map Cell.width).sum
      ∧ (∀ char ∈ (ofLine rules line).text, isControl char = false)
      ∧ ∃ first parts, ∃ blanks : List Nat,
        line = ['\t'].intercalate (first :: parts)
          ∧ (∀ part ∈ first :: parts, '\t' ∉ part)
          ∧ blanks.length = parts.length
          ∧ (ofLine rules line).text
            = visible first
              ++ (blanks.zip parts).flatMap (fun tab => List.replicate tab.1 ' ' ++ visible tab.2)
          ∧ columnsBefore rules first parts 0 = rules.columnsAfter 0 (visible first)
          ∧ ∀ tab count part, blanks[tab]? = some count → parts[tab]? = some part →
            1 ≤ count ∧ count ≤ 8 ∧ 8 ∣ columnsBefore rules first parts tab + count
              ∧ columnsBefore rules first parts (tab + 1)
                = rules.columnsAfter (columnsBefore rules first parts tab + count) (visible part) := by
  obtain ⟨first, parts, hline, hparts⟩ := Text.exists_intercalate_eq '\t' line
  obtain ⟨blanks, hlength, htext, hblanks⟩ := exists_text_ofParts rules first parts
  have hrow : ofLine rules line = ofParts rules first parts := by
    rw [hline, ofLine_intercalate hparts]
  have hplain := plain_ofLine rules line
  refine ⟨hplain.softWrapped_eq, ?_, hplain.wellFormed.size_eq, ?_, first, parts, blanks, hline,
    hparts, hlength, ?_, ?_, ?_⟩
  · rw [hrow]
    exact ofParts_keeps (p := (·.HasStyle {})) (by decide) (fun _ _ hrow => hrow.pushText rules _)
      (fun _ hrow => hrow.fill_blank _)
  · rw [hrow, htext, List.forall_mem_append]
    refine ⟨isControl_of_mem_visible, fun char hchar => ?_⟩
    obtain ⟨tab, -, hchar⟩ := List.mem_flatMap.mp hchar
    rcases List.mem_append.mp hchar with hblank | hvisible
    · rw [List.eq_of_mem_replicate hblank]
      rfl
    · exact isControl_of_mem_visible char hvisible
  · rw [hrow, htext]
  · rw [columnsBefore_eq hparts]
    exact wellFormed_empty.size_pushText rules _ _
  · intro tab count part hcount hpart
    obtain rfl := hblanks tab count hcount
    obtain ⟨hpos, hle, hstop⟩ := (ofParts rules first (parts.take tab)).blanksToTabStop_spec
    rw [← columnsBefore_eq hparts] at hstop
    exact ⟨hpos, hle, hstop, columnsBefore_succ hparts hpart⟩

end Row

end Scrollback
