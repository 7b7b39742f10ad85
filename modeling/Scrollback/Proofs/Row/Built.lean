import Mathlib.Algebra.Order.Ring.Nat
import Scrollback.Proofs.Row.Text

/-!
This module contains the rows that are built from text: they hold the text that they were given, and
they are made of complete glyphs, whatever the widths of the characters are and however the text falls
into clusters.
-/

namespace Scrollback

inductive RowEdit where
  | pushChar (char : Char) (style : Style)
  | pushText (text : List Char) (style : Style)
  | fill (size : Nat)
  | clear
  | setSoftWrapped (softWrapped : Bool)
  deriving DecidableEq

namespace Row

def edit (rules : TextRules) (row : Row) : RowEdit → Row
  | .pushChar char style => row.pushChar rules char style
  | .pushText text style => row.pushText rules text style
  | .fill size => row.fill Cell.blank size
  | .clear => empty
  | .setSoftWrapped softWrapped => { row with softWrapped }

def build (rules : TextRules) (edits : List RowEdit) : Row :=
  edits.foldl (edit rules) empty

variable {rules : TextRules} {row : Row} {style : Style}

theorem pushCluster_keeps {p : Row → Prop}
    (hchar : ∀ row char, p row → p (row.pushChar rules char style))
    (hmark : ∀ row char, p row → p (row.pushMark char style)) (h : p row) (cluster : List Char) :
    p (row.pushCluster rules style cluster) := by
  cases cluster with
  | nil => exact h
  | cons base marks =>
    apply List.foldlRecOn
    · exact hchar row base h
    · exact fun row hrow mark _ => hmark row mark hrow

theorem pushText_keeps {p : Row → Prop}
    (hchar : ∀ row char, p row → p (row.pushChar rules char style))
    (hmark : ∀ row char, p row → p (row.pushMark char style)) (h : p row) (text : List Char) :
    p (row.pushText rules text style) := by
  apply List.foldlRecOn
  · exact h
  · exact fun row hrow cluster _ => pushCluster_keeps hchar hmark hrow cluster

theorem text_foldl_pushMark (row : Row) (marks : List Char) (style : Style) :
    (marks.foldl (·.pushMark · style) row).text = row.text ++ marks := by
  induction marks generalizing row with
  | nil => exact (List.append_nil _).symm
  | cons mark marks ih =>
    rw [List.foldl_cons, ih, text_pushMark, List.append_assoc, List.singleton_append]

theorem text_pushChar (rules : TextRules) (row : Row) (char : Char) (style : Style) :
    (row.pushChar rules char style).text = row.text ++ [char] :=
  text_pushGlyph _ _ _

theorem text_pushCluster (rules : TextRules) (row : Row) (style : Style) (cluster : List Char) :
    (row.pushCluster rules style cluster).text = row.text ++ cluster := by
  cases cluster with
  | nil => exact (List.append_nil _).symm
  | cons base marks =>
    rw [pushCluster, text_foldl_pushMark, text_pushChar, List.append_assoc, List.singleton_append]

theorem text_pushText (rules : TextRules) (row : Row) (text : List Char) (style : Style) :
    (row.pushText rules text style).text = row.text ++ text := by
  have hclusters (clusters : List (List Char)) (row : Row) :
      (clusters.foldl (·.pushCluster rules style ·) row).text = row.text ++ clusters.flatten := by
    induction clusters generalizing row with
    | nil => exact (List.append_nil _).symm
    | cons cluster clusters ih =>
      rw [List.foldl_cons, ih, text_pushCluster, List.append_assoc, List.flatten_cons]
  rw [pushText, hclusters, rules.flatten_clusters]

namespace WellFormed

theorem pushCluster (h : row.WellFormed) (rules : TextRules) (style : Style) (cluster : List Char) :
    (row.pushCluster rules style cluster).WellFormed :=
  pushCluster_keeps (fun _ char hrow => hrow.pushGlyph char _)
    (fun _ char hrow => hrow.pushMark char style) h cluster

theorem pushText (h : row.WellFormed) (rules : TextRules) (text : List Char) (style : Style) :
    (row.pushText rules text style).WellFormed :=
  pushText_keeps (fun _ char hrow => hrow.pushGlyph char _)
    (fun _ char hrow => hrow.pushMark char style) h text

theorem fill_blank (h : row.WellFormed) (size : Nat) :
    (row.fill Cell.blank size).leads = row.leads ++ List.replicate (size - row.size) Cell.blank
      ∧ (row.fill Cell.blank size).WellFormed := by
  have hblank : Cell.blank.IsLead := Cell.isLead_lead ' ' {} (by decide)
  have hspans (count : Nat) : (List.replicate count Cell.blank).flatMap Cell.span
      = List.replicate count Cell.blank := by
    induction count with
    | zero => rfl
    | succ count ih =>
      rw [List.replicate_succ, List.flatMap_cons, ih]
      rfl
  apply wellFormed_of_span
  · rw [List.forall_mem_append]
    exact ⟨h.isLead, fun lead hlead => List.eq_of_mem_replicate hlead ▸ hblank⟩
  · rw [List.flatMap_append, hspans, ← h.cells_eq, fill]

theorem setSoftWrapped (h : row.WellFormed) (softWrapped : Bool) :
    { row with softWrapped }.WellFormed :=
  ⟨h.cells_eq, h.isLead⟩

theorem size_eq (h : row.WellFormed) : row.size = (row.leads.map Cell.width).sum := by
  rw [size, h.cells_eq, List.length_flatMap]
  exact congrArg List.sum (List.map_congr_left fun lead hlead => Cell.length_span (h.isLead lead hlead))

theorem edit (h : row.WellFormed) (rules : TextRules) (edit : RowEdit) :
    (row.edit rules edit).WellFormed := by
  cases edit with
  | pushChar char style => exact h.pushGlyph char _
  | pushText text style => exact h.pushText rules text style
  | fill size => exact (h.fill_blank size).2
  | clear => exact wellFormed_empty
  | setSoftWrapped softWrapped => exact h.setSoftWrapped softWrapped

end WellFormed

theorem wellFormed_build (rules : TextRules) (edits : List RowEdit) :
    (build rules edits).WellFormed := by
  apply List.foldlRecOn
  · exact wellFormed_empty
  · exact fun row hrow edit _ => hrow.edit rules edit

/--
Text that is pushed comes after the text that is there, in any row. A row that is built from text alone
is made of complete glyphs, and has as many cells as these have columns.
-/
theorem builds_from_text (rules : TextRules) :
    (∀ (row : Row) text style, (row.pushText rules text style).text = row.text ++ text)
      ∧ (∀ (row : Row) char style, (row.pushChar rules char style).text = row.text ++ [char])
      ∧ ∀ edits, (build rules edits).WellFormed
        ∧ (build rules edits).size = ((build rules edits).leads.map Cell.width).sum :=
  ⟨text_pushText rules, text_pushChar rules,
    fun edits => ⟨wellFormed_build rules edits, (wellFormed_build rules edits).size_eq⟩⟩

end Row

end Scrollback
