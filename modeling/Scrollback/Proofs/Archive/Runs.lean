import Mathlib.Algebra.Order.Ring.Nat
import Scrollback.Archive.Run
import Scrollback.Proofs.Text.Encoding

/-!
This module contains the meaning of the attribute log: the changes of style and the open run after
them give every offset in the text log a style.
-/

namespace Scrollback

/--
The run that covers an offset: it ends at the first change of style behind the offset, or it is the
open one. `tail` is the offset of the first change in the attribute log.
-/
def styleRunAt (tail : Nat) (changes : List StyleChange) (run : OpenRun) (offset : Nat) : StyleRun :=
  let index := changes.findIdx (offset < ·.textEnd.toNat)
  match changes[index]? with
  | some change =>
    { style := change.style
      finish := some change.textEnd.toNat
      entry := tail + index * StyleChange.size }
  | none => { style := run.style, finish := none, entry := tail + index * StyleChange.size }

def styleAt (changes : List StyleChange) (run : OpenRun) (offset : Nat) : Style :=
  (changes.find? (offset < ·.textEnd.toNat)).elim run.style (·.style)

theorem style_styleRunAt (tail : Nat) (changes : List StyleChange) (run : OpenRun) (offset : Nat) :
    (styleRunAt tail changes run offset).style = styleAt changes run offset := by
  unfold styleRunAt styleAt
  rw [List.find?_eq_getElem?_findIdx]
  dsimp only
  split
  all_goals
    next h =>
    simp [h]

theorem entry_styleRunAt (tail : Nat) (changes : List StyleChange) (run : OpenRun) (offset : Nat) :
    (styleRunAt tail changes run offset).entry
      =
    tail + changes.findIdx (offset < ·.textEnd.toNat) * StyleChange.size := by
  unfold styleRunAt
  dsimp only
  split <;> rfl

structure Chained (changes : List StyleChange) (run : OpenRun) : Prop where
  increasing : changes.Pairwise (·.textEnd.toNat < ·.textEnd.toNat)
  start_eq : ∀ last ∈ changes.getLast?, run.start = last.textEnd.toNat

structure Runs (low : Nat) (changes : List StyleChange) (run : OpenRun) (high : Nat) : Prop
    extends Chained changes run where
  start_le_low : changes = [] → run.start ≤ low
  start_le_high : run.start ≤ high
  flagsDefined : ∀ change ∈ changes, change.style.FlagsDefined
  flagsDefined_run : run.style.FlagsDefined

theorem findIdx_eq_of_forall_take {changes : List StyleChange} {offset count : Nat}
    (htake : ∀ change ∈ changes.take count, change.textEnd.toNat ≤ offset)
    (hcount : ∀ change ∈ changes[count]?, offset < change.textEnd.toNat)
    (hle : count ≤ changes.length) :
    changes.findIdx (offset < ·.textEnd.toNat) = count := by
  rcases Nat.eq_or_lt_of_le hle with rfl | hlt
  · rw [List.findIdx_eq_length]
    intro change hchange
    rw [List.take_length] at htake
    have := htake change hchange
    simp only [decide_eq_false_iff_not]
    omega
  · rw [List.findIdx_eq hlt]
    refine ⟨?_, ?_⟩
    · simpa using hcount changes[count] (by simp [hlt])
    · intro i hi
      have := htake changes[i] (List.mem_take_iff_getElem.mpr ⟨i, by omega, rfl⟩)
      simp only [decide_eq_false_iff_not]
      omega

theorem styleAt_append_of_exists {changes : List StyleChange} {offset : Nat}
    (h : ∃ change ∈ changes, offset < change.textEnd.toNat) (later : List StyleChange)
    (run run' : OpenRun) :
    styleAt (changes ++ later) run offset = styleAt changes run' offset := by
  obtain ⟨change, hchange⟩ :
      ∃ change, changes.find? (offset < ·.textEnd.toNat) = some change := by
    rw [← Option.isSome_iff_exists, List.find?_isSome]
    simpa using h
  simp [styleAt, List.find?_append, hchange]

theorem lt_textEnd_of_findIdx {changes : List StyleChange} {offset : Nat} {change : StyleChange}
    (h : changes[changes.findIdx (offset < ·.textEnd.toNat)]? = some change) :
    offset < change.textEnd.toNat := by
  obtain ⟨hlt, rfl⟩ := List.getElem?_eq_some_iff.mp h
  simpa using List.findIdx_getElem (w := hlt)

theorem forall_take_findIdx (changes : List StyleChange) (offset : Nat) :
    ∀ change ∈ changes.take (changes.findIdx (offset < ·.textEnd.toNat)),
      change.textEnd.toNat ≤ offset := by
  intro change hchange
  obtain ⟨i, hi, rfl⟩ := List.mem_take_iff_getElem.mp hchange
  have hlt : i < changes.findIdx (offset < ·.textEnd.toNat) := by omega
  simpa using List.not_of_lt_findIdx hlt

namespace Chained

variable {changes : List StyleChange} {run : OpenRun} {offset : Nat}

theorem textEnd_le_start (h : Chained changes run) {change : StyleChange} (hchange : change ∈ changes) :
    change.textEnd.toNat ≤ run.start := by
  obtain ⟨before, last, hlast⟩ := List.eq_nil_or_concat changes |>.resolve_left
    (List.ne_nil_of_mem hchange)
  rw [List.concat_eq_append] at hlast
  have hincreasing := h.increasing
  have hstart := h.start_eq last (by simp [hlast])
  rw [hlast] at hchange hincreasing
  rw [List.mem_append, List.mem_singleton] at hchange
  rcases hchange with hbefore | rfl
  · have := (List.pairwise_append.mp hincreasing).2.2 change hbefore last (by simp)
    omega
  · omega

theorem findIdx_eq_length (h : Chained changes run) (hoffset : run.start ≤ offset) :
    changes.findIdx (offset < ·.textEnd.toNat) = changes.length := by
  rw [List.findIdx_eq_length]
  intro change hchange
  have := h.textEnd_le_start hchange
  simp only [decide_eq_false_iff_not]
  omega

theorem styleRunAt_eq_open (h : Chained changes run) (tail : Nat) (hoffset : run.start ≤ offset) :
    styleRunAt tail changes run offset
      =
    { style := run.style, finish := none, entry := tail + changes.length * StyleChange.size } := by
  unfold styleRunAt
  rw [h.findIdx_eq_length hoffset]
  simp

theorem styleAt_eq_open (h : Chained changes run) (hoffset : run.start ≤ offset) :
    styleAt changes run offset = run.style := by
  rw [← style_styleRunAt 0, h.styleRunAt_eq_open 0 hoffset]

theorem exists_change (h : Chained changes run) (hnil : changes = [] → run.start ≤ offset)
    (hoffset : offset < run.start) : ∃ change ∈ changes, offset < change.textEnd.toNat := by
  rcases List.eq_nil_or_concat changes with heq | ⟨before, last, hlast⟩
  · have := hnil heq
    omega
  · rw [List.concat_eq_append] at hlast
    have := h.start_eq last (by simp [hlast])
    exact ⟨last, by simp [hlast], by omega⟩

end Chained

namespace Runs

variable {low high : Nat} {changes : List StyleChange} {run : OpenRun}

theorem start_le_of_nil (h : Runs low changes run high) {offset : Nat} (hlow : low ≤ offset)
    (hnil : changes = []) : run.start ≤ offset :=
  Nat.le_trans (h.start_le_low hnil) hlow

theorem grow {high' : Nat} (h : Runs low changes run high) (hhigh : high ≤ high') :
    Runs low changes run high' :=
  { h with start_le_high := Nat.le_trans h.start_le_high hhigh }

theorem empty (offset : Nat) : Runs offset [] { start := offset } offset where
  increasing := List.Pairwise.nil
  start_eq := by simp
  start_le_low _ := Nat.le_refl _
  start_le_high := Nat.le_refl _
  flagsDefined := by simp
  flagsDefined_run := (by decide : ({} : Style).FlagsDefined)

theorem switch (h : Runs low changes run high) {style : Style} (hstyle : style.FlagsDefined)
    (hrange : high < 2 ^ 64) :
    Runs low (changes ++ (run.switch high style).2.toList) (run.switch high style).1 high := by
  have hhigh : (UInt64.ofNat high).toNat = high := UInt64.toNat_ofNat_of_lt' hrange
  have hle := h.start_le_high
  unfold OpenRun.switch
  split
  · constructor
    · constructor
      · simp only [Option.toList_some, List.pairwise_append, List.pairwise_singleton, true_and]
        refine ⟨h.increasing, ?_⟩
        intro change hchange last hlast
        have := h.textEnd_le_start hchange
        rw [List.mem_singleton] at hlast
        rw [hlast, hhigh]
        omega
      · simp [hhigh]
    · simp
    · exact Nat.le_refl _
    · rw [Option.toList_some, List.forall_mem_append, List.forall_mem_singleton]
      exact ⟨h.flagsDefined, h.flagsDefined_run⟩
    · exact hstyle
  · have heq : run.start = high := by omega
    rw [Option.toList_none, List.append_nil]
    exact { h with
      start_eq := heq ▸ h.start_eq
      start_le_low := heq ▸ h.start_le_low
      start_le_high := Nat.le_refl _
      flagsDefined_run := hstyle }

theorem styleAt_switch (h : Runs low changes run high) (style : Style) (hrange : high < 2 ^ 64)
    {offset : Nat} (hlow : low ≤ offset) (hoffset : offset < high) :
    styleAt (changes ++ (run.switch high style).2.toList) (run.switch high style).1 offset
      =
    styleAt changes run offset := by
  -- The change that ends the open run gives the text up to there the style of that run.
  have hhigh : (UInt64.ofNat high).toNat = high := UInt64.toNat_ofNat_of_lt' hrange
  by_cases hstart : offset < run.start
  · exact styleAt_append_of_exists (h.exists_change (h.start_le_of_nil hlow) hstart) _ _ _
  · rw [h.styleAt_eq_open (by omega)]
    have hlt : run.start < high := by omega
    have hnone : changes.find? (offset < ·.textEnd.toNat) = none := by
      rw [List.find?_eq_none]
      intro change hchange
      have := h.textEnd_le_start hchange
      simp only [decide_eq_true_eq]
      omega
    simp [OpenRun.switch, hlt, styleAt, List.find?_append, hnone, hhigh, hoffset]

end Runs

def StyledBy (styles : Nat → Style) (offset : Nat) : List (Char × Style) → Prop
  | [] => True
  | (char, style) :: chars =>
    styles offset = style ∧ StyledBy styles (offset + char.utf8Size) chars

def styledSize (chars : List (Char × Style)) : Nat :=
  (Text.utf8 (chars.map (·.1))).length

@[simp]
theorem styledSize_nil : styledSize [] = 0 := by
  rfl

@[simp]
theorem styledSize_cons (char : Char × Style) (chars : List (Char × Style)) :
    styledSize (char :: chars) = char.1.utf8Size + styledSize chars := by
  simp [styledSize]

@[simp]
theorem styledSize_append (chars chars' : List (Char × Style)) :
    styledSize (chars ++ chars') = styledSize chars + styledSize chars' := by
  simp [styledSize]

theorem styledSize_eq_length {chars : List (Char × Style)}
    (h : ∀ char ∈ chars, char.1.utf8Size = 1) : styledSize chars = chars.length := by
  rw [styledSize, Text.length_utf8_eq (List.forall_mem_map.mpr h), List.length_map]

theorem styledBy_append {styles : Nat → Style} {offset : Nat} {chars chars' : List (Char × Style)} :
    StyledBy styles offset (chars ++ chars')
      ↔
    StyledBy styles offset chars ∧ StyledBy styles (offset + styledSize chars) chars' := by
  induction chars generalizing offset with
  | nil => simp [StyledBy]
  | cons char chars ih =>
    simp only [List.cons_append, StyledBy, ih, styledSize_cons, Nat.add_assoc, and_assoc]

theorem exists_styledBy (styles : Nat → Style) (offset : Nat) (text : List Char) :
    ∃ chars : List (Char × Style), chars.map (·.1) = text ∧ StyledBy styles offset chars := by
  induction text generalizing offset with
  | nil => exact ⟨[], rfl, trivial⟩
  | cons char text ih =>
    obtain ⟨chars, rfl, hchars⟩ := ih (offset + char.utf8Size)
    exact ⟨(char, styles offset) :: chars, rfl, rfl, hchars⟩

theorem StyledBy.getElem? {styles : Nat → Style} {offset : Nat} {chars : List (Char × Style)}
    (h : StyledBy styles offset chars) (hsize : ∀ char ∈ chars, char.1.utf8Size = 1) {i : Nat}
    {char : Char × Style} (hchar : chars[i]? = some char) : styles (offset + i) = char.2 := by
  induction chars generalizing offset i with
  | nil => simp at hchar
  | cons first chars ih =>
    rw [List.forall_mem_cons] at hsize
    cases i with
    | zero =>
      rw [List.getElem?_cons_zero, Option.some.injEq] at hchar
      rw [← hchar]
      exact h.1
    | succ i =>
      have hrest := h.2
      rw [hsize.1] at hrest
      rw [Nat.add_comm i, ← Nat.add_assoc]
      exact ih hrest hsize.2 hchar

theorem StyledBy.congr {styles styles' : Nat → Style} {offset : Nat} {chars : List (Char × Style)}
    (h : StyledBy styles offset chars)
    (heq : ∀ place, offset ≤ place → place < offset + styledSize chars →
      styles' place = styles place) :
    StyledBy styles' offset chars := by
  induction chars generalizing offset with
  | nil => trivial
  | cons char chars ih =>
    rw [styledSize_cons] at heq
    have := char.1.utf8Size_pos
    refine ⟨?_, ?_⟩
    · rw [heq offset (Nat.le_refl _) (by omega)]
      exact h.1
    · apply ih h.2
      intro place hle hlt
      exact heq place (by omega) (by omega)

end Scrollback
