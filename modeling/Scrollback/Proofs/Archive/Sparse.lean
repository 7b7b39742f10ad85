import Scrollback.Proofs.Archive.Freeze

/-!
This module contains the proof that the attribute log grows with the text log: every change of style ends
a run of at least one byte.
-/

namespace Scrollback

namespace Draft

variable {low start : Nat} {draft : Draft}

/--
Each run that ends within the draft has text. The run before the draft starts at offset `low`.
-/
structure Sparse (low start : Nat) (draft : Draft) : Prop where
  length_le : low + draft.changes.length ≤ draft.run.start
  start_le : draft.run.start ≤ start + draft.text.utf8ByteSize

namespace Sparse

theorem ofRun {run : OpenRun} (h : run.start ≤ start) : Sparse run.start start { run } where
  length_le := Nat.le_refl run.start
  start_le := Nat.le_add_right_of_le h

theorem switch (h : draft.Sparse low start) (style : Style) :
    (draft.switch start style).Sparse low start := by
  obtain ⟨hlength, hstart⟩ := h
  unfold Draft.switch OpenRun.switch
  dsimp only
  -- A run that is empty leaves no change behind.
  split
  · refine ⟨?_, Nat.le_refl _⟩
    rw [Option.toList_some, List.length_append, List.length_singleton]
    dsimp only
    omega
  · refine ⟨?_, Nat.le_refl _⟩
    rw [Option.toList_none, List.append_nil]
    exact Nat.le_trans hlength hstart

theorem grow {text : String} (h : draft.Sparse low start)
    (htext : draft.text.utf8ByteSize ≤ text.utf8ByteSize) (leading : Option Nat) (ascii : Bool) :
    Sparse low start { draft with text, leading, ascii } :=
  ⟨h.length_le, Nat.le_trans h.start_le (Nat.add_le_add_left htext start)⟩

theorem addBase (h : draft.Sparse low start) (cell : Cell) :
    (draft.addBase start cell).Sparse low start := by
  unfold Draft.addBase
  dsimp only
  split
  · exact h.grow (by simp) _ _
  · exact (h.switch cell.style).grow (by simp) _ _

theorem addMarks (h : draft.Sparse low start) (marks : List Char) :
    (draft.addMarks start marks).Sparse low start := by
  unfold Draft.addMarks
  split
  · exact h
  · exact (h.switch Style.combining).grow (by simp) _ _

theorem addCell (h : draft.Sparse low start) (cell : Cell) :
    (draft.addCell start cell).Sparse low start := by
  unfold Draft.addCell
  split
  · exact h
  · exact (h.addBase cell).addMarks cell.markList

theorem close (h : draft.Sparse low start) (softWrapped : Bool) :
    (draft.close softWrapped).Sparse low start := by
  unfold Draft.close
  split
  · exact h
  · exact h.grow (by simp) _ _

end Sparse

theorem sparse_ofRow {run : OpenRun} (h : run.start ≤ start) (row : Row) :
    (ofRow run start row).Sparse run.start start := by
  apply Sparse.close
  apply List.foldlRecOn
  · exact Sparse.ofRun h
  · exact fun draft hdraft cell _ => hdraft.addCell cell

end Draft

namespace ArchiveContents

structure Sparse (contents : ArchiveContents) : Prop where
  head_le : contents.attributes.head ≤ contents.openRun.start * StyleChange.size
  start_le : contents.openRun.start ≤ contents.text.head

namespace Sparse

variable {contents : ArchiveContents}

theorem inRange (h : contents.Sparse)
    (hrange : StyleChange.size * contents.text.head < 2 ^ 64) : contents.InRange := by
  have hstart := Nat.mul_le_mul_right StyleChange.size h.start_le
  have hhead := h.head_le
  rw [StyleChange.size] at *
  constructor
  · omega
  · omega

theorem reset (h : contents.Sparse) (index : Nat) : (contents.reset index).Sparse where
  head_le := Nat.le_trans h.head_le (Nat.mul_le_mul_right StyleChange.size h.start_le)
  start_le := Nat.le_refl _

theorem freeze (h : contents.Sparse) (row : Row) : (contents.freeze row).Sparse := by
  obtain ⟨hlength, hstart⟩ := Draft.sparse_ofRow h.start_le row
  constructor
  · have hhead := h.head_le
    have hchanges := Nat.mul_le_mul_right StyleChange.size hlength
    rw [Nat.add_mul] at hchanges
    simp only [ArchiveContents.freeze, LogContents.head_append, Draft.changeBytes,
      length_flatMap_of_forall StyleChange.length_encode]
    omega
  · simp only [ArchiveContents.freeze, LogContents.head_append, Text.toList_toUTF8]
    rwa [← Text.utf8ByteSize_eq]

end Sparse

end ArchiveContents

end Scrollback
