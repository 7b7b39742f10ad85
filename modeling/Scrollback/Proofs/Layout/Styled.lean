import Scrollback.Layout.Paragraph
import Scrollback.Proofs.Archive.Read
import Scrollback.Proofs.Layout.Place

/-!
This module contains the proof that both ways to lay out text give the layout of its characters one
after the other.
-/

namespace Scrollback

/--
Text is laid out in one go up to where the run is said to stop. That is at least one character, and the
run goes on over all characters after that one.
-/
theorem StyleRun.exists_stop (run : StyleRun) (offset length : Nat) :
    ∃ count ≤ length,
      max (offset + 1) (min (run.finish.getD (offset + (length + 1))) (offset + (length + 1)))
          = offset + (count + 1)
        ∧ ∀ place, offset < place → place < offset + (count + 1) → run.Covers place := by
  generalize hstop : max (offset + 1) _ = stop
  obtain ⟨count, rfl⟩ : ∃ count, stop = offset + (count + 1) := ⟨stop - offset - 1, by omega⟩
  refine ⟨count, by omega, rfl, ?_⟩
  intro place hlt hplace finish hfinish
  rw [hfinish, Option.getD_some] at hstop
  omega

namespace Layout

variable {layout : Layout} {entryOf : Nat → Nat}

def openFor (layout : Layout) (entryOf : Nat → Nat) (ascii : Bool) (offset width : Nat) : Layout :=
  if 0 < width ∧ layout.overflows width then layout.openRow offset (entryOf offset) ascii else layout

/--
Lay out styled text. Its first character is at `offset` in the text log, and `entryOf` gives each
offset there the entry that ends its run.
-/
def addStyled (layout : Layout) (entryOf : Nat → Nat) (ascii : Bool) (offset : Nat) :
    List (Char × Style) → Layout
  | [] => layout
  | char :: chars =>
    let width := char.2.columns.toNat
    let next := offset + char.1.utf8Size
    (((layout.openFor entryOf ascii offset width).placeAtEnd next).take width).addStyled entryOf ascii
      next chars

theorem addStyled_append (ascii : Bool) (offset : Nat) (chars chars' : List (Char × Style)) :
    layout.addStyled entryOf ascii offset (chars ++ chars')
      =
    (layout.addStyled entryOf ascii offset chars).addStyled entryOf ascii (offset + styledSize chars)
      chars' := by
  induction chars generalizing layout offset with
  | nil => rfl
  | cons char chars ih =>
    rw [List.cons_append, addStyled, addStyled, ih, styledSize_cons, Nat.add_assoc]

namespace Sorted

theorem openFor (h : layout.Sorted) (ascii : Bool) (offset width : Nat) :
    (layout.openFor entryOf ascii offset width).Sorted := by
  unfold Layout.openFor
  split
  · exact h
  · exact h

theorem take (h : layout.Sorted) (columns : Nat) : (layout.take columns).Sorted :=
  h

theorem addStyled (h : layout.Sorted) (ascii : Bool) (offset : Nat) (chars : List (Char × Style)) :
    (layout.addStyled entryOf ascii offset chars).Sorted := by
  induction chars generalizing layout offset with
  | nil => exact h
  | cons char chars ih => exact ih (((h.openFor _ _ _).placeBefore _ _).take _) _

end Sorted

def Uniform (width : Nat) (chars : List (Char × Style)) : Prop :=
  ∀ char ∈ chars, char.1.utf8Size = 1 ∧ char.2.columns.toNat = width

theorem openFor_eq_of_fits {ascii : Bool} {offset width : Nat}
    (h : ¬ (0 < width ∧ 0 < layout.column ∧ layout.columns < layout.column + width)) :
    layout.openFor entryOf ascii offset width = layout := by
  rw [openFor, if_neg]
  simpa [overflows] using h

theorem addStyled_eq_of_fits (h : layout.Sorted) (ascii : Bool) (offset : Nat) {width : Nat}
    {char : Char × Style} {chars : List (Char × Style)} (hchars : Uniform width (char :: chars))
    (hfits : ∀ i ≤ chars.length, ¬ (0 < width ∧ 0 < layout.column + i * width
      ∧ layout.columns < layout.column + i * width + width)) :
    layout.addStyled entryOf ascii offset (char :: chars)
      =
    (layout.placeBefore (offset + (chars.length + 1))
      fun place => layout.column + (max place offset - offset) * width).take
        ((chars.length + 1) * width) := by
  induction chars generalizing layout offset char with
  | nil =>
    obtain ⟨hsize, hwidth⟩ := hchars char List.mem_cons_self
    rw [addStyled, addStyled, hsize, hwidth, openFor_eq_of_fits (by simpa using hfits 0)]
    rw [List.length_nil, Nat.zero_add, Nat.one_mul, placeAtEnd]
    congr 1
    apply layout.placeBefore_congr
    intro place hplace
    rw [Nat.max_eq_right (by omega), Nat.sub_self, Nat.zero_mul, Nat.add_zero]
  | cons next chars ih =>
    obtain ⟨⟨hsize, hwidth⟩, hchars⟩ := List.forall_mem_cons.mp hchars
    rw [addStyled, hsize, hwidth, openFor_eq_of_fits (by simpa using hfits 0 (Nat.zero_le _)),
      placeAtEnd, ih ((h.placeBefore _ _).take _) _ hchars]
    · have hcount : width + (chars.length + 1) * width = (chars.length + 1 + 1) * width := by
        rw [Nat.add_mul (chars.length + 1), Nat.one_mul, Nat.add_comm]
      rw [take_placeBefore, take_take, h.placeBefore_placeBefore (by omega), hcount, List.length_cons,
        Nat.add_assoc offset, Nat.add_comm 1]
      congr 1
      apply layout.placeBefore_congr
      intro place hplace
      simp only [column_take, column_placeBefore]
      split
      · rw [Nat.max_eq_right (by omega), Nat.sub_self, Nat.zero_mul, Nat.add_zero]
      · rw [Nat.max_eq_left (by omega), Nat.max_eq_left (by omega), Nat.add_assoc, Nat.add_comm width,
          ← Nat.succ_mul, Nat.succ_eq_add_one, show place - (offset + 1) + 1 = place - offset by omega]
    · intro i hi
      have := hfits (i + 1) (by rw [List.length_cons]; omega)
      rw [Nat.add_mul, Nat.one_mul] at this
      simp only [column_take, column_placeBefore, columns_take, columns_placeBefore]
      omega

theorem openFor_fits (layout : Layout) (entryOf : Nat → Nat) (ascii : Bool) (offset width : Nat) :
    ¬ (0 < width ∧ 0 < (layout.openFor entryOf ascii offset width).column
      ∧ (layout.openFor entryOf ascii offset width).columns
        < (layout.openFor entryOf ascii offset width).column + width) := by
  unfold openFor
  split
  · simp [openRow]
  · next h =>
    simpa [overflows] using h

theorem openFor_openFor (ascii : Bool) (offset width : Nat) :
    (layout.openFor entryOf ascii offset width).openFor entryOf ascii offset width
      =
    layout.openFor entryOf ascii offset width :=
  openFor_eq_of_fits (layout.openFor_fits entryOf ascii offset width)

theorem addStyled_openFor {ascii : Bool} {offset width : Nat} {char : Char × Style}
    (hwidth : char.2.columns.toNat = width) (chars : List (Char × Style)) :
    (layout.openFor entryOf ascii offset width).addStyled entryOf ascii offset (char :: chars)
      =
    layout.addStyled entryOf ascii offset (char :: chars) := by
  rw [addStyled, addStyled, hwidth, openFor_openFor]

theorem fits_of_le_div {columns column width count : Nat}
    (hcolumn : ¬ (0 < width ∧ 0 < column ∧ columns < column + width))
    (hcount : count ≤ max ((columns - column) / width) 1) :
    ∀ i < count, ¬ (0 < width ∧ 0 < column + i * width ∧ columns < column + i * width + width) := by
  -- The characters of one width that a row has room for. One that is too wide for any row has room
  -- where nothing stands before it.
  rintro i hi ⟨hwidth, hi'⟩
  cases i with
  | zero =>
    rw [Nat.zero_mul] at hi'
    omega
  | succ i =>
    have hle : (i + 1 + 1) * width ≤ columns - column := by
      rw [← Nat.le_div_iff_mul_le hwidth]
      omega
    rw [Nat.succ_mul] at hle
    omega

theorem Uniform.styledSize_eq {width : Nat} {chars : List (Char × Style)} (h : Uniform width chars) :
    styledSize chars = chars.length :=
  styledSize_eq_length fun char hchar => (h char hchar).1

theorem addStyled_eq_of_count (h : layout.Sorted) (ascii : Bool) (offset : Nat) {width count : Nat}
    {char : Char × Style} {chars : List (Char × Style)} (hchars : Uniform width (char :: chars))
    (hcount : count ≤ chars.length)
    (hfits : ∀ i < count + 1, ¬ (0 < width ∧ 0 < layout.column + i * width
      ∧ layout.columns < layout.column + i * width + width)) :
    layout.addStyled entryOf ascii offset (char :: chars)
      =
    ((layout.placeBefore (offset + (count + 1))
      fun place => layout.column + (max place offset - offset) * width).take
        ((count + 1) * width)).addStyled entryOf ascii (offset + (count + 1)) (chars.drop count) := by
  have hsplit : char :: chars = (char :: chars.take count) ++ chars.drop count := by
    rw [List.cons_append, List.take_append_drop]
  have hlength : (chars.take count).length = count := List.length_take_of_le hcount
  have hchunk : Uniform width (char :: chars.take count) := by
    intro other hother
    apply hchars
    rw [hsplit]
    exact List.mem_append_left _ hother
  rw [hsplit, addStyled_append, hchunk.styledSize_eq, List.length_cons, hlength,
    addStyled_eq_of_fits h ascii offset hchunk (fun i hi => hfits i (by omega)), hlength]

theorem addChunks_eq_addStyled (h : layout.Sorted) {run : StyleRun} (offset : Nat)
    {chars : List (Char × Style)} (hchars : Uniform run.style.columns.toNat chars)
    (hwidth : 0 < run.style.columns.toNat)
    (hentry : ∀ place, offset ≤ place → place < offset + chars.length → entryOf place = run.entry) :
    layout.addChunks run offset (offset + chars.length)
      =
    layout.addStyled entryOf true offset chars := by
  -- A chunk ends where the row is full or the text ends, whichever comes first.
  induction hn : chars.length using Nat.strongRecOn generalizing layout offset chars with | ind _ ih
  subst hn
  cases chars with
  | nil =>
    rw [addChunks, if_neg (by simp)]
    rfl
  | cons char chars =>
    have hchar := hchars char List.mem_cons_self
    have hopen : (if layout.overflows run.style.columns.toNat then
        layout.openRow offset run.entry true else layout)
        = layout.openFor entryOf true offset run.style.columns.toNat := by
      rw [openFor, hentry offset (Nat.le_refl _) (by simp)]
      simp only [hwidth, true_and]
    rw [addChunks, if_pos (by simp)]
    dsimp only
    rw [← addStyled_openFor hchar.2, hopen]
    have hsorted : (layout.openFor entryOf true offset run.style.columns.toNat).Sorted :=
      h.openFor _ _ _
    have hroom := layout.openFor_fits entryOf true offset run.style.columns.toNat
    generalize layout.openFor entryOf true offset run.style.columns.toNat = layout at hroom hsorted
    obtain ⟨count, hcount⟩ : ∃ count,
        min (max ((layout.columns - layout.column) / run.style.columns.toNat) 1)
          (offset + (char :: chars).length - offset) = count + 1 := by
      apply Nat.exists_eq_add_one.mpr
      rw [List.length_cons]
      omega
    rw [List.length_cons] at hcount hentry
    have hlength : offset + (chars.length + 1)
        = offset + (count + 1) + (chars.drop count).length := by
      rw [List.length_drop]
      omega
    rw [addStyled_eq_of_count hsorted true offset hchars (by omega : count ≤ _)
      (fits_of_le_div hroom (by omega))]
    rw [List.length_cons, hcount, hlength]
    apply ih _ _ ((hsorted.placeBefore _ _).take _) _ _ _ rfl
    · rw [List.length_drop, List.length_cons]
      omega
    · exact fun other hother => hchars other (List.mem_cons_of_mem _ (List.mem_of_mem_drop hother))
    · intro place hle hlt
      apply hentry
      · omega
      · omega

theorem addRun_eq_addStyled (entryOf : Nat → Nat) (h : layout.Sorted) {run : StyleRun} {offset : Nat}
    {char : Char × Style} {chars : List (Char × Style)}
    (hchars : Uniform run.style.columns.toNat (char :: chars))
    (hentry : ∀ place, offset ≤ place → place < offset + (chars.length + 1) →
      entryOf place = run.entry) :
    (if run.style.columns = 0 then
        layout.placeAtEnd (offset + (chars.length + 1))
      else
        layout.addChunks run offset (offset + (chars.length + 1)))
      =
    layout.addStyled entryOf true offset (char :: chars) := by
  split
  · next hzero =>
    rw [hzero] at hchars
    rw [addStyled_eq_of_fits h true offset hchars (by simp)]
    simp [placeAtEnd]
  · next hzero =>
    apply addChunks_eq_addStyled h offset hchars _ hentry
    rw [Nat.pos_iff_ne_zero]
    exact fun hcolumns => hzero (UInt8.toNat_inj.mp hcolumns)

end Layout

end Scrollback
