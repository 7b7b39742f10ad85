import Scrollback.Proofs.Archive.Text
import Scrollback.Proofs.Layout.Text

/-!
This module contains the proof that the ways to lay out 7-bit text a run at a time and a character at a
time come to the same, whatever the attribute log holds.
-/

namespace Scrollback

namespace Archive

variable {σ α β : Type} [ByteLog σ]

theorem ends_runAt_current (head : Nat) (reader : RunReader) (offset : Nat) (archive : Archive σ) :
    Ends (runAt head reader offset) archive
      (fun result _ => result.2.current = some result.1 ∧ result.1.Covers offset)
      (fun _ _ => True) := by
  unfold runAt
  split
  · next run hrun =>
    rw [Option.filter_eq_some_iff, decide_eq_true_eq] at hrun
    exact hrun
  · split
    · exact ⟨rfl, by simp [StyleRun.Covers]⟩
    · split
      · trivial
      · rw [ends_bind]
        apply Ends.of_forall
        · exact fun change after => ends_runAt_current head _ offset after
        · exact fun _ _ => trivial
termination_by head - reader.next
decreasing_by
  simp only [StyleChange.size]
  omega

theorem runAt_of_covers (head : Nat) {reader : RunReader} {run : StyleRun} {offset : Nat}
    (hcurrent : reader.current = some run) (hcovers : run.Covers offset) :
    (runAt head reader offset : EStateM RingError (Archive σ) (StyleRun × RunReader))
      =
    pure (run, reader) := by
  unfold runAt
  rw [hcurrent, Option.filter_some, if_pos (decide_eq_true hcovers)]

/--
Whether what the action returns, and what it makes of the attribute log, only depends on what the
attribute log was before.
-/
def OnlyAttributes (action : EStateM RingError (Archive σ) α) : Prop :=
  ∀ archive archive' : Archive σ, archive.attributes = archive'.attributes →
    outcome action archive = outcome action archive'
      ∧ (final action archive).attributes = (final action archive').attributes

namespace OnlyAttributes

omit [ByteLog σ]

theorem pure (a : α) : OnlyAttributes (σ := σ) (pure a) :=
  fun _ _ h => ⟨rfl, h⟩

theorem throw (e : RingError) : OnlyAttributes (throw e : EStateM RingError (Archive σ) α) :=
  fun _ _ h => ⟨rfl, h⟩

theorem onLog_attribute (action : EStateM LogError σ α) : OnlyAttributes (onLog .attribute action) := by
  rintro ⟨_, _, attributes, _⟩ ⟨_, _, _, _⟩ rfl
  unfold outcome final Archive.onLog
  dsimp only
  cases action attributes with
  | ok a after => exact ⟨rfl, rfl⟩
  | error e after => exact ⟨rfl, rfl⟩

theorem bind {action : EStateM RingError (Archive σ) α} {f : α → EStateM RingError (Archive σ) β}
    (haction : OnlyAttributes action) (hf : ∀ a, OnlyAttributes (f a)) :
    OnlyAttributes (action >>= f) := by
  intro archive archive' h
  obtain ⟨houtcome, hfinal⟩ := haction archive archive' h
  rw [outcome_bind, outcome_bind, final_bind, final_bind, houtcome]
  cases outcome action archive' with
  | ok a => exact hf a _ _ hfinal
  | error e => exact ⟨rfl, hfinal⟩

end OnlyAttributes

theorem onlyAttributes_readChange (offset : Nat) : OnlyAttributes (σ := σ) (readChange offset) := by
  unfold readChange
  apply (OnlyAttributes.onLog_attribute _).bind
  intro bytes
  split
  · exact .pure _
  · exact .throw _

theorem onlyAttributes_runAt (head : Nat) (reader : RunReader) (offset : Nat) :
    OnlyAttributes (σ := σ) (runAt head reader offset) := by
  unfold runAt
  split
  · exact .pure _
  · split
    · exact .pure _
    · split
      · exact .throw _
      · apply (onlyAttributes_readChange _).bind
        exact fun change => onlyAttributes_runAt head _ offset
termination_by head - reader.next
decreasing_by
  simp only [StyleChange.size]
  omega

end Archive

namespace Layout

variable {layout : Layout} {entryOf : Nat → Nat}

def forgetAscii (layout : Layout) : Layout :=
  { layout with entries := layout.entries.map fun entry => { entry with ascii := false } }

theorem forgetAscii_openRow (layout : Layout) (textStart styleStart : Nat) (ascii : Bool) :
    (layout.openRow textStart styleStart ascii).forgetAscii
      =
    layout.forgetAscii.openRow textStart styleStart false := by
  simp only [forgetAscii, openRow, Array.map_push]

theorem forgetAscii_openFor (layout : Layout) (entryOf : Nat → Nat) (ascii : Bool)
    (offset width : Nat) :
    (layout.openFor entryOf ascii offset width).forgetAscii
      =
    layout.forgetAscii.openFor entryOf false offset width := by
  unfold openFor
  rw [apply_ite forgetAscii, forgetAscii_openRow]
  rfl

theorem forgetAscii_placeWhile (layout : Layout) (reached : Nat → Bool) (columnOf : Nat → Nat) :
    (layout.placeWhile reached columnOf).forgetAscii
      =
    layout.forgetAscii.placeWhile reached columnOf := by
  rw [placeWhile_eq, placeWhile_eq]
  simp only [forgetAscii, Array.size_map]

theorem forgetAscii_placeAtEnd (layout : Layout) (limit : Nat) :
    (layout.placeAtEnd limit).forgetAscii = layout.forgetAscii.placeAtEnd limit :=
  forgetAscii_placeWhile layout _ _

theorem forgetAscii_take (layout : Layout) (columns : Nat) :
    (layout.take columns).forgetAscii = layout.forgetAscii.take columns := by
  rfl

theorem forgetAscii_addStyled (layout : Layout) (entryOf : Nat → Nat) (ascii : Bool) (offset : Nat)
    (chars : List (Char × Style)) :
    (layout.addStyled entryOf ascii offset chars).forgetAscii
      =
    layout.forgetAscii.addStyled entryOf false offset chars := by
  induction chars generalizing layout offset with
  | nil => rfl
  | cons char chars ih =>
    rw [addStyled, addStyled, ih, forgetAscii_take, forgetAscii_placeAtEnd, forgetAscii_openFor]

variable {σ : Type} [ByteLog σ] {head offset : Nat} {reader : RunReader} {run : StyleRun}

theorem onlyAttributes_addChars (head : Nat) (reader : RunReader) (layout : Layout) (offset : Nat)
    (chars : List Char) :
    Archive.OnlyAttributes (σ := σ) (layout.addChars head reader offset chars) := by
  induction chars generalizing reader layout offset with
  | nil => exact .pure _
  | cons char chars ih =>
    rw [addChars]
    apply (Archive.onlyAttributes_runAt head reader offset).bind
    exact fun result => ih result.2 _ _

theorem runAt_bind_addChars (head : Nat) (reader : RunReader) (layout : Layout) (offset : Nat)
    (char : Char) (chars : List Char) :
    (Archive.runAt head reader offset >>= fun result =>
        layout.addChars head result.2 offset (char :: chars))
      =
    (layout.addChars head reader offset (char :: chars) : EStateM RingError (Archive σ) Layout) := by
  conv =>
    rhs
    rw [addChars]
  apply bind_congr_of_ends (Archive.ends_runAt_current head reader offset)
  rintro ⟨run, reader'⟩ ⟨hcurrent, hcovers⟩
  rw [addChars, Archive.runAt_of_covers head hcurrent hcovers, pure_bind]

theorem addChars_append_of_covers (head : Nat) (layout : Layout)
    (hcurrent : reader.current = some run) (offset : Nat) (chars chars' : List Char)
    (hcovers : ∀ place, offset ≤ place → place < offset + (Text.utf8 chars).length →
      run.Covers place) :
    (layout.addChars head reader offset (chars ++ chars') : EStateM RingError (Archive σ) Layout)
      =
    (layout.addStyled (fun _ => run.entry) false offset (chars.map (·, run.style))).addChars head reader
      (offset + (Text.utf8 chars).length) chars' := by
  induction chars generalizing layout offset with
  | nil => rfl
  | cons char chars ih =>
    have hpos := char.utf8Size_pos
    rw [Text.length_utf8_cons] at hcovers ⊢
    rw [List.cons_append, addChars,
      Archive.runAt_of_covers head hcurrent (hcovers offset (Nat.le_refl _) (by omega)), pure_bind]
    dsimp only
    rw [ih _ _ fun place hle hlt => hcovers place (by omega) (by omega), Nat.add_assoc, List.map_cons,
      addStyled]
    simp only [openFor, Bool.and_eq_true, decide_eq_true_eq]

theorem addRun_eq_addStyled_map (hsorted : layout.Sorted) (run : StyleRun) (offset : Nat) {char : Char}
    {chars : List Char} (hsize : ∀ other ∈ char :: chars, other.utf8Size = 1) :
    (if run.style.columns = 0 then
        layout.placeAtEnd (offset + (chars.length + 1))
      else
        layout.addChunks run offset (offset + (chars.length + 1)))
      =
    layout.addStyled (fun _ => run.entry) true offset ((char :: chars).map (·, run.style)) := by
  have huniform : Uniform run.style.columns.toNat ((char :: chars).map (·, run.style)) :=
    List.forall_mem_map.mpr fun other hother => ⟨hsize other hother, rfl⟩
  have hentry : ∀ place, offset ≤ place → place < offset + ((chars.map (·, run.style)).length + 1) →
      (fun _ => run.entry) place = run.entry :=
    fun _ _ _ => rfl
  have hadd := addRun_eq_addStyled (fun _ => run.entry) hsorted huniform hentry
  rwa [List.length_map] at hadd

/--
Text whose characters take up one byte each is laid out a run at a time as it is a character at a time,
apart from the marks of the rows.
-/
theorem forgetAscii_addAscii (hsorted : layout.Sorted) (head : Nat) (reader : RunReader) (offset : Nat)
    {chars : List Char} (hsize : ∀ char ∈ chars, char.utf8Size = 1) :
    forgetAscii <$> layout.addAscii head reader offset (offset + chars.length)
      =
    (layout.forgetAscii.addChars head reader offset chars : EStateM RingError (Archive σ) Layout) := by
  -- Of the characters that are left, the first ones up to the end of their run go into the layout at
  -- once.
  induction hn : chars.length using Nat.strongRecOn generalizing reader layout offset chars with
    | ind _ ih
  subst hn
  cases chars with
  | nil =>
    rw [addAscii, if_neg (by simp), map_pure]
    rfl
  | cons char chars =>
    rw [addAscii, if_pos (by simp), map_bind, ← runAt_bind_addChars]
    apply bind_congr_of_ends (Archive.ends_runAt_current head reader offset)
    rintro ⟨run, reader'⟩ ⟨hcurrent, hrun⟩
    dsimp only at hcurrent hrun ⊢
    obtain ⟨count, hle, hstop, hgoes⟩ := run.exists_stop offset chars.length
    have hcovers : ∀ place, offset ≤ place → place < offset + (count + 1) → run.Covers place := by
      intro place hplace hlt
      rcases Nat.eq_or_lt_of_le hplace with rfl | hlt'
      · exact hrun
      · exact hgoes place hlt' hlt
    have hsplit : char :: chars = (char :: chars.take count) ++ chars.drop count := by
      rw [List.cons_append, List.take_append_drop]
    have hlength : (chars.take count).length = count := List.length_take_of_le hle
    have hrest : offset + (chars.length + 1) = offset + (count + 1) + (chars.drop count).length := by
      rw [List.length_drop]
      omega
    rw [hsplit, List.forall_mem_append] at hsize
    have hutf8 : (Text.utf8 (char :: chars.take count)).length = count + 1 := by
      rw [Text.length_utf8_eq hsize.1, List.length_cons, hlength]
    have hadd := addRun_eq_addStyled_map hsorted run offset hsize.1
    rw [hlength] at hadd
    rw [List.length_cons, hstop, hadd, hrest, ih _ _ (hsorted.addStyled true offset _) reader' _ hsize.2
      rfl, hsplit, addChars_append_of_covers head layout.forgetAscii hcurrent offset _ _
      (hutf8 ▸ hcovers), hutf8, forgetAscii_addStyled]
    rw [List.length_drop, List.length_cons]
    omega

theorem outcome_addText {σ : Type} [ByteLog σ] [ReliableLog σ] {archive : Archive σ} {stop : Nat}
    {chars : List Char} (htail : archive.contents.text.tail ≤ offset)
    (hhead : offset + (stop - offset) ≤ archive.contents.text.head)
    (hslice : archive.contents.text.slice offset (stop - offset) = Text.utf8 chars) (head : Nat)
    (reader : RunReader) (layout : Layout) :
    outcome (layout.addText head reader offset stop) archive
      =
    outcome (layout.addChars head reader offset chars) archive := by
  have hread : Ends (Archive.onLog .text (ByteLog.read offset (stop - offset))) archive
      (fun bytes after => bytes.data.toList = Text.utf8 chars ∧ after.attributes = archive.attributes)
      fun e _ => Archive.IsFault σ e := by
    rw [Archive.ends_onLog]
    apply (LawfulLog.read_law archive.text offset (stop - offset) htail hhead).imp
    · exact fun bytes after hread => ⟨hread.1.trans hslice, rfl⟩
    · exact fun e after herr => Archive.isFault_log herr.1
  obtain ⟨bytes, hbytes, hutf8, hattributes⟩ :=
    hread.outcome_final_of_ok fun e _ => Archive.not_isFault e
  rw [addText, outcome_bind, hbytes, Except.bind, Text.fromUTF8?_eq hutf8]
  dsimp only
  rw [String.toList_ofList]
  exact (onlyAttributes_addChars head reader layout offset chars _ _ hattributes).1

theorem forgetAscii_addChars (head : Nat) (reader : RunReader) (layout : Layout) (offset : Nat)
    (chars : List Char) :
    forgetAscii <$> layout.addChars head reader offset chars
      =
    (layout.forgetAscii.addChars head reader offset chars : EStateM RingError (Archive σ) Layout) := by
  induction chars generalizing reader layout offset with
  | nil => rfl
  | cons char chars ih =>
    rw [addChars, addChars, map_bind]
    apply bind_congr
    rintro ⟨run, reader⟩
    dsimp only
    rw [ih, forgetAscii_take, forgetAscii_placeAtEnd, apply_ite forgetAscii, forgetAscii_openRow]
    rfl

end Layout

theorem ArchiveContents.SevenBit.exists_chars {contents : ArchiveContents} {low high : Nat}
    (h : contents.SevenBit low high) (htail : contents.text.tail ≤ low) (hle : low ≤ high)
    (hhead : high ≤ contents.text.head) :
    ∃ chars : List Char, (∀ char ∈ chars, char.utf8Size = 1) ∧ high = low + chars.length
      ∧ contents.text.slice low (high - low) = Text.utf8 chars := by
  obtain ⟨chars, hutf8, hsize⟩ := Text.exists_utf8_eq (h.slice htail)
  have hlength := congrArg List.length hutf8
  rw [Text.length_utf8_eq hsize, LogContents.slice, List.length_take, List.length_drop] at hlength
  rw [LogContents.head] at hhead
  exact ⟨chars, hsize, by omega, hutf8.symm⟩

namespace Layout

variable {σ : Type} [ByteLog σ] [ReliableLog σ] {archive : Archive σ} {layout : Layout}
  {offset stop : Nat}

theorem outcome_addAscii {layout' : Layout} (hsorted : layout.Sorted)
    (heq : layout.forgetAscii = layout'.forgetAscii) (hascii : archive.contents.SevenBit offset stop)
    (htail : archive.contents.text.tail ≤ offset) (hle : offset ≤ stop)
    (hhead : stop ≤ archive.contents.text.head) (head : Nat) (reader : RunReader) :
    (outcome (layout.addAscii head reader offset stop) archive).map forgetAscii
      =
    (outcome (layout'.addText head reader offset stop) archive).map forgetAscii := by
  obtain ⟨chars, hsize, rfl, hslice⟩ := hascii.exists_chars htail hle hhead
  rw [outcome_addText htail (by omega) hslice, ← outcome_map, ← outcome_map,
    forgetAscii_addAscii hsorted head reader offset hsize, forgetAscii_addChars, heq]

theorem outcome_addParagraph (hsorted : layout.Sorted) {first : RowEntry}
    (hascii : archive.contents.SevenBit first.textStart.toNat stop)
    (htail : archive.contents.text.tail ≤ first.textStart.toNat) (hle : first.textStart.toNat ≤ stop)
    (hhead : stop ≤ archive.contents.text.head) :
    (outcome (layout.addParagraph first stop true) archive).map forgetAscii
      =
    (outcome (layout.addParagraph first stop false) archive).map forgetAscii := by
  have hsame := (Archive.Yields.runAt (ByteLog.head archive.attributes)
    { next := first.styleStart.toNat, openRun := archive.openRun } first.textStart.toNat
    archive (.refl _)).imp (fun _ _ hafter => hafter.2) fun _ _ hafter => hafter
  have htext := hsame.final.2
  rw [addParagraph, addParagraph, outcome_get_bind, outcome_get_bind]
  dsimp only
  rw [outcome_bind, outcome_bind]
  generalize final _ _ = after at htext ⊢
  cases outcome _ archive with
  | error e => rfl
  | ok result =>
    unfold ArchiveContents.SevenBit at hascii
    rw [← htext] at hascii htail hhead
    refine outcome_addAscii ?_ ?_ hascii htail hle hhead _ _
    · exact hsorted
    · rw [forgetAscii_openRow, forgetAscii_openRow]

end Layout

theorem ArchiveContents.Holds.exists_reads_addParagraph {σ : Type} [ByteLog σ] [LawfulLog σ]
    {contents : ArchiveContents} {first k stop : Nat} {frozen : List FrozenRow}
    {changes : List StyleChange} {row : FrozenRow} (h : contents.Holds first frozen changes)
    (hrow : frozen[k]? = some row) {layout : Layout} (hsorted : layout.Sorted)
    (hascii : contents.SevenBit row.start stop) (hle : row.start ≤ stop)
    (hhead : stop ≤ contents.text.head) :
    ∃ laid, Archive.Reads (σ := σ) (layout.addParagraph row.entry stop true) contents laid := by
  have htail := (h.bounds hrow).1
  obtain ⟨text, hsize, rfl, -⟩ := hascii.exists_chars htail hle hhead
  obtain ⟨chars, rfl, hstyled⟩ :=
    exists_styledBy (styleAt changes contents.openRun) row.start text
  obtain ⟨reader, hready, hreads⟩ := h.reads_addParagraph_of_row (σ := σ) hrow layout
  rw [List.forall_mem_map] at hsize
  rw [List.length_map]
  have hopened : (layout.openRow row.start (contents.entryAt changes row.start) true).Sorted := hsorted
  exact ⟨_, hreads true _ _ (h.reads_addAscii htail hready hopened hsize hstyled)⟩

end Scrollback
