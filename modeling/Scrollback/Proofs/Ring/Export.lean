import Scrollback.Proofs.Ring.Reachable
import Scrollback.Proofs.Ring.StoredReachable

/-!
This module contains the proof that exporting a ring writes the lines of the rows that reading it gives,
wherever a sink stops taking them.
-/

namespace Scrollback

/--
Whether `taken` says which bytes a sink took: all bytes of a write that succeeds, and the first ones of
a write that fails.
-/
def Sink.Takes {κ : Type} [Sink κ] (taken : κ → List UInt8) : Prop :=
  ∀ bytes sink,
    Ends (Sink.write bytes) sink
      (fun _ after => taken after = taken sink ++ bytes.data.toList)
      (fun _ after => ∃ part, part <+: bytes.data.toList ∧ taken after = taken sink ++ part)

namespace Sink

variable {κ : Type} [Sink κ]

theorem Takes.ends_writeAll {taken : κ → List UInt8} (h : Takes taken) (pieces : List ByteArray)
    (sink : κ) :
    Ends (writeAll pieces) sink
      (fun _ after => taken after = taken sink ++ pieces.flatMap (·.data.toList))
      (fun _ after => ∃ part, part <+: pieces.flatMap (·.data.toList)
        ∧ taken after = taken sink ++ part) := by
  induction pieces generalizing sink with
  | nil =>
    rw [writeAll, ends_pure]
    exact (List.append_nil _).symm
  | cons piece pieces ih =>
    rw [writeAll, ends_bind, List.flatMap_cons]
    apply (h piece sink).imp
    · intro _ next hnext
      apply (ih next).imp
      · intro _ after hafter
        rw [hafter, hnext, List.append_assoc]
      · rintro message after ⟨part, hpart, hafter⟩
        refine ⟨piece.data.toList ++ part, (List.prefix_append_right_inj _).mpr hpart, ?_⟩
        rw [hafter, hnext, List.append_assoc]
    · rintro message after ⟨part, hpart, hafter⟩
      exact ⟨part, hpart.trans (List.prefix_append _ _), hafter⟩

theorem writeAll_append (pieces pieces' : List ByteArray) :
    (writeAll (pieces ++ pieces') : EStateM String κ Unit)
      =
    (do writeAll pieces; writeAll pieces') := by
  induction pieces with
  | nil => rfl
  | cons piece pieces ih => rw [List.cons_append, writeAll, ih, writeAll, bind_assoc]

theorem takes_boundedSink : Takes fun sink : BoundedSink => sink.written.data.toList := by
  intro bytes sink
  simp only [Ends, write]
  split
  · next heq =>
    split at heq
    · rw [EStateM.Result.ok.injEq] at heq
      rw [← heq.2, ByteArray.data_append, Array.toList_append]
    · contradiction
  · next heq =>
    split at heq
    · contradiction
    · rw [EStateM.Result.error.injEq] at heq
      exact ⟨[], List.nil_prefix, by rw [heq.2, List.append_nil]⟩

end Sink

namespace Ring

variable {σ κ : Type} [ByteLog σ] [LawfulLog σ] [Sink κ] {ring : Ring σ} {start finish index : Nat}
  {stored : List StoredRow} {row : Row}

def pieces (ring : Ring σ) : List ByteArray :=
  let text := ring.archive.contents.text
  Archive.pieces text text.head text.tail ++ linePieces ring.windowRows

theorem ends_writeContents_pieces (ring : Ring σ) (sink : κ) :
    Ends writeContents (ring, sink)
      (fun _ after => Sink.writeAll ring.pieces sink = .ok () after.2)
      (fun e after => Archive.IsCopyFailure σ
        (fun message => Sink.writeAll ring.pieces sink = .error message after.2) e) := by
  rw [ends_writeContents, pieces, Sink.writeAll_append]
  apply (Archive.ends_copyText_pieces rfl sink).imp
  · rintro _ ⟨archive, copied⟩ ⟨-, hcopied⟩
    rw [writeLines_eq]
    apply (Ends.of_forall (fun _ _ => trivial) fun _ _ => trivial).with_result.imp
    · rintro _ after ⟨-, hwrite⟩
      simp only [bind, EStateM.bind, hcopied, hwrite]
    · rintro message after ⟨-, hwrite⟩
      simp only [bind, EStateM.bind, hcopied, hwrite]
      exact Or.inr ⟨message, rfl, rfl⟩
  · rintro e copied ⟨hfault | ⟨message, rfl, hwrite⟩, -⟩
    · exact Or.inl hfault
    · simp only [bind, EStateM.bind, hwrite]
      exact Or.inr ⟨message, rfl, rfl⟩

namespace Stores

theorem flatMap_pieces (h : ring.Stores start finish stored) :
    ring.pieces.flatMap (·.data.toList)
      =
    stored.flatMap StoredRow.bytes ++ Text.utf8 (ring.windowRows.flatMap Row.line) := by
  rw [pieces, List.flatMap_append, flatMap_linePieces, Archive.flatMap_pieces (Nat.le_refl _),
    LogContents.slice_tail, h.archive.text_eq]

theorem flatMap_bytes_eq (h : ring.Stores start finish stored) {f : Nat → Row}
    (hf : ∀ index, start ≤ index ∧ index < finish → (Ring.row index).run' ring = some (f index)) :
    stored.flatMap StoredRow.bytes
      =
    Text.utf8 (((List.range' start stored.length).map f).flatMap Row.line) := by
  have hle := h.writable_le
  rw [Text.utf8_flatMap, List.flatMap_map, List.flatMap_def, List.flatMap_def]
  congr 1
  apply List.ext_getElem
  · simp
  · intro k hk _
    rw [List.length_map] at hk
    obtain ⟨-, -, -, hfrozen⟩ := (h.ends_row (start + k)).of_run' (hf (start + k) (by omega))
    rw [List.getElem_map, List.getElem_map, List.getElem_range', Nat.one_mul]
    exact (hfrozen k _ rfl (List.getElem?_eq_getElem hk)).1

theorem windowRows_eq (h : ring.Stores start finish stored) {f : Nat → Row}
    (hf : ∀ index, start ≤ index ∧ index < finish → (Ring.row index).run' ring = some (f index)) :
    ring.windowRows
      =
    (List.range' (start + stored.length) (finish - (start + stored.length))).map f := by
  rw [windowRows, h.writable_eq, h.finish_eq]
  apply List.map_congr_left
  intro index hindex
  rw [List.mem_range'_1] at hindex
  obtain ⟨after, -, hlive, -⟩ := (h.ends_row index).of_run' (hf index (by omega))
  exact (hlive (by rw [h.writable_eq]; omega)).symm

theorem flatMap_pieces_eq (h : ring.Stores start finish stored) {f : Nat → Row}
    (hf : ∀ index, start ≤ index ∧ index < finish → (Ring.row index).run' ring = some (f index)) :
    ring.pieces.flatMap (·.data.toList)
      =
    Text.utf8 (((List.range' start (finish - start)).map f).flatMap Row.line) := by
  have hle := h.writable_le
  rw [h.flatMap_pieces, h.flatMap_bytes_eq hf, h.windowRows_eq hf, ← Text.utf8_append,
    ← List.flatMap_append, ← List.map_append, List.range'_append_1,
    show stored.length + (finish - (start + stored.length)) = finish - start by omega]

theorem isSoftWrapped_run' {σ : Type} [ByteLog σ] [ReliableLog σ] {ring : Ring σ}
    (h : ring.Stores start finish stored) (hindex : start ≤ index ∧ index < finish)
    (hrow : (Ring.row index).run' ring = some row) :
    (isSoftWrapped index).run' ring = some row.softWrapped := by
  obtain ⟨-, -, hlive, hfrozen⟩ := (h.ends_row index).of_run' hrow
  apply Ends.run'_eq
  · apply (h.ends_isSoftWrapped index).imp
    · rintro softWrapped _ ⟨-, hsoftLive, hsoftFrozen⟩
      by_cases hle : ring.writable ≤ index
      · rw [hsoftLive hle, hlive hle]
      · obtain ⟨k, rfl⟩ := Nat.exists_eq_add_of_le hindex.1
        have hwritable := h.writable_eq
        have hget : stored[k]? = some stored[k] := List.getElem?_eq_getElem (by omega)
        rw [hsoftFrozen k _ rfl hget, (hfrozen k _ rfl hget).2]
    · exact fun e _ herr => herr.2 hindex
  · exact fun e _ => Archive.not_isFault e

end Stores

/--
Whether writing the text of all rows writes the given bytes. They are written in the same pieces to
every sink, up to the first piece that it refuses.
-/
def Exports (ring : Ring σ) (bytes : List UInt8) : Prop :=
  ∃ pieces : List ByteArray, pieces.flatMap (·.data.toList) = bytes
    ∧ ∀ {κ : Type} [Sink κ] (sink : κ), Ends writeContents (ring, sink)
      (fun _ after => Sink.writeAll pieces sink = .ok () after.2)
      (fun e after => ∃ message, e = .sink message
        ∧ Sink.writeAll pieces sink = .error message after.2)

omit [LawfulLog σ] in
theorem Exports.ends_writeContents {bytes : List UInt8} (h : ring.Exports bytes)
    {taken : κ → List UInt8} (htaken : Sink.Takes taken) (sink : κ) :
    Ends writeContents (ring, sink)
      (fun _ after => taken after.2 = taken sink ++ bytes)
      (fun e after => (∃ message, e = .sink message)
        ∧ ∃ part, part <+: bytes ∧ taken after.2 = taken sink ++ part) := by
  obtain ⟨pieces, rfl, hpieces⟩ := h
  apply (hpieces sink).imp
  · exact fun _ after hwrite => (htaken.ends_writeAll pieces sink).of_ok hwrite
  · rintro e after ⟨message, rfl, hwrite⟩
    exact ⟨⟨message, rfl⟩, (htaken.ends_writeAll pieces sink).of_error hwrite⟩

/--
If the logs do not fail and all rows can be read, the text of the rows that are read is written, with a
line break after each row that ends its paragraph. A sink that refuses a write ends the call with its
error and has taken a prefix of the text. Rows of any kind may have been written to the ring.
-/
theorem exports_lines {σ : Type} [ByteLog σ] [ReliableLog σ] {ring : Ring σ}
    (hring : ring.Attainable fun _ => True)
    (hread : ∀ index ∈ List.range' ring.start ring.size, ((Ring.row index).run' ring).isSome) :
    ∃ rows, ring.ReadsAs rows ∧ ring.Exports (Text.utf8 (rows.flatMap Row.line))
      ∧ ∀ {κ : Type} [Sink κ] {taken : κ → List UInt8}, Sink.Takes taken → ∀ sink,
        Ends writeContents (ring, sink)
          (fun _ after => taken after.2 = taken sink ++ Text.utf8 (rows.flatMap Row.line))
          (fun e after => (∃ message, e = .sink message)
            ∧ ∃ part, part <+: Text.utf8 (rows.flatMap Row.line)
              ∧ taken after.2 = taken sink ++ part) := by
  obtain ⟨start, finish, stored, hstored⟩ := hring.isStored
  have hsize : ring.size = finish - start := by
    rw [size, hstored.start_eq, hstored.finish_eq]
  have hexists : ∀ index, start ≤ index ∧ index < finish →
      ∃ row, (Ring.row index).run' ring = some row := by
    intro index hindex
    apply Option.isSome_iff_exists.mp
    apply hread
    rw [hstored.start_eq, hsize, List.mem_range'_1]
    omega
  choose! f hf using hexists
  have hexports : ring.Exports
      (Text.utf8 (((List.range' start (finish - start)).map f).flatMap Row.line)) := by
    refine ⟨ring.pieces, hstored.flatMap_pieces_eq hf, fun sink => ?_⟩
    apply (ends_writeContents_pieces ring sink).imp
    · exact fun _ after hwrite => hwrite
    · exact fun e after herr => herr.resolve_left (Archive.not_isFault e)
  refine ⟨_, ?_, hexports, fun htaken sink => hexports.ends_writeContents htaken sink⟩
  rw [ReadsAs, hstored.start_eq, hsize, List.map_map, List.map_map, List.map_inj_left,
    List.map_inj_left]
  constructor
  all_goals
    intro index hindex
    rw [List.mem_range'_1] at hindex
  · exact hf index (by omega)
  · exact hstored.isSoftWrapped_run' (by omega) (hf index (by omega))

/--
A row with a fragment of no glyph is split anew together with the one before it, the oldest row goes, and
a row whose effect has no meaning is in the window. The size of the sink is arbitrary.
-/
theorem exports_lines_odd :
    let wide : Row :=
      { cells := Cell.glyph 'x' { columns := 2 } ++ Cell.glyph 'é' {}, softWrapped := true }
    let odd : Row :=
      { cells := [{ char := '\n', fragment := true }, Cell.lead 'y' {},
          Cell.lead '\n' { columns := 0 }] }
    let unread : Row := { cells := [Cell.lead 'z' { flags := 0x8000 }] }
    let ring := (ofLogs 4 1 default default default : Ring MemoryLog).after
      ([.call (.append wide), .call (.append odd), .call (.append Row.empty), .rewrap 1 [],
        .call (.append unread)] : List (Operation ByteArray))
    let text := Text.utf8 ['é', 'y', '\n', '\n', '\n', 'z', '\n']
    ring.start = 1 ∧ ring.writable = 4 ∧ ring.finish = 5 ∧ ring.Exports text
      ∧ ∀ limit, Ends writeContents (ring, ({ limit } : BoundedSink))
        (fun _ after => after.2.written.data.toList = text)
        (fun e after => (∃ message, e = .sink message) ∧ after.2.written.data.toList <+: text) := by
  intro wide odd unread ring text
  have hring : ring.Attainable fun _ => True :=
    (Attainable.ofLogs 4 1 _ _ _).after (by simp [Operation.Writes, Call.Writes]) (by decide +kernel)
  obtain ⟨rows, hrows, hexports, htaken⟩ := exports_lines hring (by decide +kernel)
  obtain rfl : rows = [
      { cells := Cell.glyph 'é' {}, softWrapped := true },
      { cells := [{ Cell.lead 'y' {} with marks := some ['\n'] }] },
      Row.empty, unread] := hrows.eq (by decide +kernel)
  refine ⟨by decide +kernel, by decide +kernel, by decide +kernel, hexports, fun limit => ?_⟩
  apply (htaken Sink.takes_boundedSink _).imp
  · exact fun _ after hafter => hafter
  · rintro e after ⟨he, part, hpart, hafter⟩
    exact ⟨he, hafter ▸ hpart⟩

end Ring

end Scrollback
