import Scrollback.Archive.Read
import Scrollback.Proofs.Archive.Contents
import Scrollback.Proofs.Archive.Runs
import Scrollback.Proofs.Log.Memory
import Scrollback.Proofs.Pieces

/-!
This module contains the proof that a reader of the attribute log finds the run of every offset that it
is asked for, whatever it was asked for before.
-/

namespace Scrollback

theorem covers_some {style : Style} {finish entry offset : Nat} :
    StyleRun.Covers { style, finish := some finish, entry } offset ↔ offset < finish := by
  simp [StyleRun.Covers]

theorem covers_none {style : Style} {entry offset : Nat} :
    StyleRun.Covers { style, finish := none, entry } offset := by
  simp [StyleRun.Covers]

/--
The log holds the entries of the given changes of style and nothing else, and the open run follows
them. Bytes of an entry that do not matter may be anything.
-/
structure LogContents.HoldsRuns (log : LogContents) (changes : List StyleChange) (run : OpenRun) : Prop
    extends Chained changes run where
  length_eq : log.bytes.length = changes.length * StyleChange.size
  decode?_eq : ∀ k (hk : k < changes.length),
    StyleChange.decode? (log.slice (log.tail + k * StyleChange.size) StyleChange.size)
      = some changes[k]

/--
The run that an offset is in for those who only look at the changes from position `count` on. It ends
at the first of them that is behind the offset. If there is none it is the open run.
-/
def LogContents.runFrom (log : LogContents) (changes : List StyleChange) (run : OpenRun)
    (count offset : Nat) : StyleRun :=
  match (changes.zipIdx.drop count).find? (offset < ·.1.textEnd.toNat) with
  | some (change, k) =>
    { style := change.style
      finish := some change.textEnd.toNat
      entry := log.tail + k * StyleChange.size }
  | none => { style := run.style, finish := none, entry := log.head }

namespace RunReader

/--
A reader that was not asked for an offset behind `offset` yet. Whatever it skipped ends before the
offsets that it will be asked for, and its current run covers them if it reaches that far.
-/
def Ready (log : LogContents) (changes : List StyleChange) (run : OpenRun) (offset : Nat)
    (reader : RunReader) : Prop :=
  reader.openRun = run
    ∧ ∃ count ≤ changes.length,
      reader.next = log.tail + count * StyleChange.size
        ∧ ∀ place, offset ≤ place →
          match reader.current.filter (·.Covers place) with
          | some found => found = styleRunAt log.tail changes run place
          | none => ∀ change ∈ changes.take count, change.textEnd.toNat ≤ place

variable {log : LogContents} {changes : List StyleChange} {run : OpenRun} {count offset : Nat}

theorem Ready.mono {reader : RunReader} {offset' : Nat} (h : reader.Ready log changes run offset)
    (hle : offset ≤ offset') : reader.Ready log changes run offset' := by
  obtain ⟨hopen, count, hcount, hnext, hcurrent⟩ := h
  exact ⟨hopen, count, hcount, hnext, fun place hplace => hcurrent place (by omega)⟩

theorem ready_start (hcount : count ≤ changes.length)
    (htake : ∀ change ∈ changes.take count, change.textEnd.toNat ≤ offset) :
    Ready log changes run offset
      { next := log.tail + count * StyleChange.size, openRun := run } := by
  refine ⟨rfl, count, hcount, rfl, ?_⟩
  intro place hplace change hchange
  exact Nat.le_trans (htake change hchange) hplace

theorem ready_next (reader : RunReader) {change : StyleChange} (hopen : reader.openRun = run)
    (hnext : reader.next = log.tail + count * StyleChange.size)
    (htake : ∀ change ∈ changes.take count, change.textEnd.toNat ≤ offset)
    (hchange : changes[count]? = some change) :
    Ready log changes run offset
      { reader with
        next := reader.next + StyleChange.size
        current := some
          { style := change.style
            finish := some change.textEnd.toNat
            entry := reader.next } } := by
  -- The change that the reader takes as its current run is right for as long as that run lasts.
  have hcount := (List.getElem?_eq_some_iff.mp hchange).1
  refine ⟨hopen, count + 1, hcount, ?_, ?_⟩
  · rw [Nat.succ_mul, ← Nat.add_assoc, hnext]
  · intro place hplace
    by_cases hcovers : place < change.textEnd.toNat
    · have hfind : changes.findIdx (place < ·.textEnd.toNat) = count := by
        apply findIdx_eq_of_forall_take
        · intro change hchange
          exact Nat.le_trans (htake change hchange) hplace
        · rw [hchange]
          simpa using hcovers
        · omega
      simp only [Option.filter_some, covers_some, hcovers, decide_true, ↓reduceIte, styleRunAt,
        hfind, hchange, hnext]
    · simp only [Option.filter_some, covers_some, hcovers, decide_false, Bool.false_eq_true,
        ↓reduceIte]
      rw [List.take_succ_eq_append_getElem hcount, List.forall_mem_append]
      rw [List.getElem?_eq_getElem hcount, Option.some.injEq] at hchange
      refine ⟨fun change hchange => Nat.le_trans (htake change hchange) hplace, ?_⟩
      rw [List.forall_mem_singleton, hchange]
      omega

end RunReader

namespace Archive

variable {σ : Type} [ByteLog σ]

def runsAt (head : Nat) (reader : RunReader) : List Nat → EStateM RingError (Archive σ) (List StyleRun)
  | [] => return []
  | offset :: offsets => do
    let (run, reader) ← runAt head reader offset
    let runs ← runsAt head reader offsets
    return run :: runs

end Archive

namespace LogContents.HoldsRuns

open Archive RunReader

variable {log : LogContents} {changes : List StyleChange} {run : OpenRun} {count offset : Nat}

theorem head_eq (h : log.HoldsRuns changes run) :
    log.head = log.tail + changes.length * StyleChange.size := by
  rw [LogContents.head, h.length_eq]

theorem forall_take (h : log.HoldsRuns changes run)
    (hbefore : ∀ last ∈ (changes.take count).getLast?, last.textEnd.toNat ≤ offset) :
    ∀ change ∈ changes.take count, change.textEnd.toNat ≤ offset := by
  intro change hchange
  cases hlast : (changes.take count).getLast? with
  | none =>
    rw [List.getLast?_eq_none_iff.mp hlast] at hchange
    contradiction
  | some last =>
    have hchained : Chained (changes.take count) { start := last.textEnd.toNat } := by
      refine ⟨h.increasing.sublist (List.take_sublist _ _), ?_⟩
      rintro _ hlast'
      rw [hlast, Option.mem_some_iff] at hlast'
      rw [hlast']
    exact Nat.le_trans (hchained.textEnd_le_start hchange) (hbefore last hlast)

theorem runFrom_eq (h : log.HoldsRuns changes run)
    (htake : ∀ change ∈ changes.take count, change.textEnd.toNat ≤ offset) :
    log.runFrom changes run count offset = styleRunAt log.tail changes run offset := by
  have hfind : (changes.zipIdx.drop count).find? (offset < ·.1.textEnd.toNat)
      = changes.zipIdx[changes.findIdx (offset < ·.textEnd.toNat)]? := by
    apply find?_drop_zipIdx fun change : StyleChange => decide (offset < change.textEnd.toNat)
    intro change hchange
    rw [decide_eq_false_iff_not, Nat.not_lt]
    exact htake change hchange
  unfold runFrom styleRunAt
  rw [hfind, List.getElem?_zipIdx]
  dsimp only
  cases hchange : changes[changes.findIdx (offset < ·.textEnd.toNat)]? with
  | some change => rw [Option.map_some, Nat.zero_add]
  | none =>
    have hlength := Nat.le_antisymm List.findIdx_le_length (List.getElem?_eq_none_iff.mp hchange)
    rw [Option.map_none, hlength, h.head_eq]

variable {σ : Type} [ByteLog σ] [LawfulLog σ] {contents : ArchiveContents}

theorem reads_readChange (h : contents.attributes.HoldsRuns changes run) {k : Nat}
    {change : StyleChange} (hchange : changes[k]? = some change) :
    Reads (σ := σ) (readChange (contents.attributes.tail + k * StyleChange.size)) contents
      change := by
  obtain ⟨hk, rfl⟩ := List.getElem?_eq_some_iff.mp hchange
  unfold readChange
  apply Reads.bind
  · apply Reads.onLog_read
    · exact Nat.le_add_right _ _
    · rw [ArchiveContents.log, h.head_eq, Nat.add_assoc, ← Nat.succ_mul]
      exact Nat.add_le_add_left (Nat.mul_le_mul_right _ hk) _
  · rw [ArchiveContents.log, List.data_toByteArray, List.toList_toArray, h.decode?_eq k hk]
    exact Reads.pure _

theorem ready_open (h : log.HoldsRuns changes run) {reader : RunReader}
    (hready : reader.Ready log changes run offset) (hoffset : run.start ≤ offset) :
    Ready log changes run offset
      { reader with
        current := some { style := run.style, finish := none, entry := log.head } } := by
  obtain ⟨hopen, count, hcount, hnext, -⟩ := hready
  refine ⟨hopen, count, hcount, hnext, ?_⟩
  intro place hplace
  simp only [Option.filter_some, covers_none, decide_true, ↓reduceIte]
  rw [h.styleRunAt_eq_open _ (Nat.le_trans hoffset hplace), h.head_eq]

theorem reads_runAt (h : contents.attributes.HoldsRuns changes run) {reader : RunReader}
    (hnil : changes = [] → run.start ≤ offset)
    (hready : reader.Ready contents.attributes changes run offset) :
    ∃ reader', reader'.Ready contents.attributes changes run offset
      ∧ Reads (σ := σ) (runAt contents.attributes.head reader offset) contents
        (styleRunAt contents.attributes.tail changes run offset, reader') := by
  have ⟨hopen, count, hcount, hnext, hcurrent⟩ := hready
  have hhere := hcurrent offset (Nat.le_refl offset)
  unfold runAt
  split
  · next found hfound =>
    rw [hfound] at hhere
    refine ⟨_, hready, ?_⟩
    rw [← hhere]
    exact Reads.pure _
  · next hnone =>
    rw [hnone] at hhere
    split
    · next hoffset =>
      rw [hopen] at hoffset
      refine ⟨_, h.ready_open hready hoffset, ?_⟩
      rw [h.styleRunAt_eq_open _ hoffset, ← h.head_eq, hopen]
      exact Reads.pure _
    · next hoffset =>
      rw [hopen] at hoffset
      obtain ⟨change, hmem, hchange⟩ := h.exists_change hnil (by omega)
      -- A reader that skipped all changes would be at the open run, so there is a change to take
      -- next. It brings the reader closer to the head of the log, which is what the recursion is on.
      have hlt : count < changes.length := by
        apply Nat.lt_of_le_of_ne hcount
        rintro rfl
        rw [List.take_length] at hhere
        have := hhere change hmem
        omega
      have hget := List.getElem?_eq_getElem hlt
      obtain ⟨reader', hready', hreads⟩ :=
        reads_runAt h hnil (ready_next reader hopen hnext hhere hget)
      refine ⟨reader', hready', ?_⟩
      rw [if_neg]
      · have hchange := h.reads_readChange (σ := σ) hget
        rw [← hnext] at hchange
        exact Reads.bind hchange hreads
      · rw [h.head_eq, hnext]
        simp only [StyleChange.size]
        omega
termination_by contents.attributes.head - reader.next
decreasing_by
  have := h.head_eq
  simp only [StyleChange.size] at *
  omega

theorem reads_runsAt (h : contents.attributes.HoldsRuns changes run) {reader : RunReader}
    {offsets : List Nat}
    (hnil : changes = [] → ∀ place ∈ offsets, run.start ≤ place)
    (hsorted : (offset :: offsets).Pairwise (· ≤ ·))
    (hready : reader.Ready contents.attributes changes run offset) :
    Reads (σ := σ) (runsAt contents.attributes.head reader offsets) contents
      (offsets.map (styleRunAt contents.attributes.tail changes run)) := by
  induction offsets generalizing reader offset with
  | nil => exact Reads.pure _
  | cons place offsets ih =>
    rw [List.pairwise_cons, List.forall_mem_cons] at hsorted
    obtain ⟨reader', hready', hreads⟩ := h.reads_runAt (σ := σ)
      (fun heq => (List.forall_mem_cons.mp (hnil heq)).1) (hready.mono hsorted.1.1)
    rw [runsAt, List.map_cons]
    apply Reads.bind hreads
    apply Reads.bind (ih (fun heq => (List.forall_mem_cons.mp (hnil heq)).2) hsorted.2 hready')
    exact Reads.pure _

end LogContents.HoldsRuns

namespace Archive

/--
A reader that starts at any entry of the attribute log, or at its head, and is asked for offsets that
do not decrease finds the run of each of them, as if it had been asked for none before. The offsets
must not be before the end of the run that the entry before the first one ends, and not before the open
run if there is no entry.
-/
theorem runsAt_eq_map_runFrom {σ : Type} [ByteLog σ] [ReliableLog σ] {archive : Archive σ}
    {changes : List StyleChange} {run : OpenRun}
    (h : archive.contents.attributes.HoldsRuns changes run) {count : Nat}
    (hcount : count ≤ changes.length) (offsets : List Nat) (hsorted : offsets.Pairwise (· ≤ ·))
    (hbefore : ∀ last ∈ (changes.take count).getLast?, ∀ offset ∈ offsets,
      last.textEnd.toNat ≤ offset)
    (hnil : changes = [] → ∀ offset ∈ offsets, run.start ≤ offset) :
    ∃ after,
      runsAt (ByteLog.head archive.attributes)
          { next := ByteLog.tail archive.attributes + count * StyleChange.size, openRun := run }
          offsets archive
        = .ok (offsets.map (archive.contents.attributes.runFrom changes run count)) after
      ∧ after.contents = archive.contents := by
  -- The reader is ready for every offset from the end of the last run that it skips on.
  obtain ⟨low, hlast, hlow⟩ : ∃ low,
      (∀ last ∈ (changes.take count).getLast?, last.textEnd.toNat ≤ low)
        ∧ ∀ offset ∈ offsets, low ≤ offset := by
    cases hlast : (changes.take count).getLast? with
    | none => exact ⟨0, by simp, by simp⟩
    | some last => exact ⟨last.textEnd.toNat, by simp, hbefore last hlast⟩
  have htake := h.forall_take hlast
  have hreads := h.reads_runsAt (σ := σ) hnil (List.pairwise_cons.mpr ⟨hlow, hsorted⟩)
    (RunReader.ready_start hcount htake)
  obtain ⟨_, after, hrun, rfl, hafter⟩ :=
    (hreads archive rfl).exists_ok fun e _ herr => not_isFault e herr.1
  refine ⟨after, ?_, hafter⟩
  rw [head_attributes, tail_attributes, hrun]
  congr 1
  apply List.map_congr_left
  intro offset hoffset
  have hskipped : ∀ change ∈ changes.take count, change.textEnd.toNat ≤ offset :=
    fun change hchange => Nat.le_trans (htake change hchange) (hlow offset hoffset)
  rw [h.runFrom_eq hskipped]

/--
Three entries, the first of which was released. The last one has bytes in its colors that do not matter.
The reader starts at that one, so that the text before offset 6 is behind it.
-/
theorem runsAt_eq_map_runFrom_released :
    let style (index : UInt8) : Style := { foreground := .indexed index, background := .indexed 0 }
    let first : StyleChange := { textEnd := 4, style := style 1 }
    let second : StyleChange := { textEnd := 6, style := style 2 }
    let last : List UInt8 := LittleEndian.encode 8 9 ++ [1, 3, 7, 7] ++ [1, 0, 0, 7] ++ [0, 0] ++ [1]
    let log : MemoryLog :=
      ((default : MemoryLog).append (first.encode ++ second.encode ++ last).toByteArray).advanceTail 19
    let archive : Archive MemoryLog := { rows := default, text := default, attributes := log }
    let changes : List StyleChange := [second, { textEnd := 9, style := style 3 }]
    let run : OpenRun := { style := style 4, start := 9 }
    archive.contents.attributes.HoldsRuns changes run
      ∧ ∃ after,
        runsAt 57 { next := 38, openRun := run } [6, 8, 9, 20] archive
          = .ok
            [{ style := style 3, finish := some 9, entry := 38 },
              { style := style 3, finish := some 9, entry := 38 },
              { style := style 4, finish := none, entry := 57 },
              { style := style 4, finish := none, entry := 57 }] after := by
  intro style first second last log archive changes run
  have h : archive.contents.attributes.HoldsRuns changes run :=
    ⟨⟨by decide, by decide⟩, by decide +kernel, by decide +kernel⟩
  have hhead : ByteLog.head archive.attributes = 57 := by decide +kernel
  have htail : ByteLog.tail archive.attributes = 19 := by decide +kernel
  have hruns : [6, 8, 9, 20].map (archive.contents.attributes.runFrom changes run 1)
      = [{ style := style 3, finish := some 9, entry := 38 },
        { style := style 3, finish := some 9, entry := 38 },
        { style := style 4, finish := none, entry := 57 },
        { style := style 4, finish := none, entry := 57 }] := by
    decide +kernel
  have hcount : 1 ≤ changes.length := by decide
  obtain ⟨after, hrun, -⟩ :=
    runsAt_eq_map_runFrom h hcount [6, 8, 9, 20] (by decide) (by decide) (by decide)
  rw [hhead, htail, hruns] at hrun
  exact ⟨h, after, hrun⟩

end Archive

end Scrollback
