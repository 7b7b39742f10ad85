import Scrollback.Proofs.Log.Memory
import Scrollback.Proofs.Ring.Answers
import Scrollback.Proofs.Ring.Bounds
import Scrollback.Proofs.Row.End
import Scrollback.Proofs.Row.Greedy

/-!
This module contains the proof that text which is loaded into a ring and brought to another number of
columns gives the same ring as text that is loaded in that number of columns.
-/

namespace Scrollback

theorem Window.ends_grow_two (window : Window) (start count : Nat) :
    Ends (grow fits start count 2) window (fun _ after => 2 ≤ after.capacity)
      (fun _ _ => False) := by
  apply ends_grow_capacity.imp
  · exact fun _ after hafter => hafter.1
  · rintro e after ⟨-, ⟨hmax, -⟩ | ⟨hmemory, -⟩, -⟩
    · exact absurd hmax (by decide)
    · exact absurd hmemory (by decide)

/--
The list that is left when the given rows are appended one after the other and the oldest ones go
whenever there are too many.
-/
def RowList.ofRows (maxRows : Nat) (rows : List Row) : RowList where
  start := rows.length - max maxRows 1
  rows := rows.drop (rows.length - max maxRows 1)
  maxRows := max maxRows 1
  maxRows_pos := (ofMaxRows maxRows).maxRows_pos

namespace RowList

variable {maxRows : Nat} {rows : List Row}

theorem finish_ofRows : (ofRows maxRows rows).finish = rows.length := by
  rw [finish, ofRows]
  dsimp only
  rw [List.length_drop]
  omega

theorem wellFormed_ofRows (h : ∀ row ∈ rows, row.WellFormed) : (ofRows maxRows rows).WellFormed :=
  fun row hrow => h row (List.mem_of_mem_drop hrow)

theorem insert_ofRows (row : Row) :
    (ofRows maxRows rows).insert rows.length row = ofRows maxRows (rows ++ [row]) := by
  have hevict : (ofRows maxRows rows).evict
      = { ofRows maxRows rows with
          start := rows.length + 1 - max maxRows 1
          rows := rows.drop (rows.length + 1 - max maxRows 1) } := by
    unfold evict ofRows
    dsimp only
    split
    · next hfull =>
      rw [List.length_drop] at hfull
      have hstart : rows.length - max maxRows 1 + 1 = rows.length + 1 - max maxRows 1 := by omega
      simp only [drop, List.drop_drop, hstart]
    · next hroom =>
      rw [List.length_drop] at hroom
      have hstart : rows.length - max maxRows 1 = rows.length + 1 - max maxRows 1 := by omega
      simp only [hstart]
  have hlength : rows.length - (rows.length + 1 - max maxRows 1)
      = (rows.drop (rows.length + 1 - max maxRows 1)).length := by
    rw [List.length_drop]
  rw [insert, hevict, insertIdx]
  dsimp only
  rw [hlength, List.insertIdx_length_self, ofRows, ofRows]
  dsimp only
  rw [List.length_append, List.length_singleton, List.drop_append_of_le_length (by omega)]

theorem rows_ofRows (h : rows.length ≤ max maxRows 1) : (ofRows maxRows rows).rows = rows := by
  rw [ofRows]
  dsimp only
  rw [Nat.sub_eq_zero_of_le h, List.drop_zero]

theorem rewrap_ofRows (h : rows.length ≤ max maxRows 1) (columns : Nat) :
    (ofRows maxRows rows).rewrap columns = ofRows maxRows (Row.rewrap rows columns) := by
  have hzero : rows.length - max maxRows 1 = 0 := by omega
  rw [rewrap, ofRows, ofRows, drop]
  dsimp only
  rw [hzero, List.drop_zero, Nat.zero_add]

theorem ofRows_nil (maxRows : Nat) : ofRows maxRows [] = ofMaxRows maxRows := by
  simp [ofRows, ofMaxRows]

end RowList

namespace Ring

variable {σ : Type} [ByteLog σ] {ring : Ring σ} {list : RowList} {maxRows : Nat}

def PushesInRange (ring : Ring σ) : List Row → Prop
  | [] => True
  | row :: rows =>
    Ends (push row) ring (fun _ after => after.archive.InRange ∧ after.PushesInRange rows)
      (fun _ _ => True)

def decidePushesInRange (ring : Ring σ) : (rows : List Row) → Decidable (ring.PushesInRange rows)
  | [] => isTrue trivial
  | row :: rows =>
    have (after : Ring σ) := decidePushesInRange after rows
    inferInstanceAs (Decidable (Ends (push row) ring
      (fun _ after => after.archive.InRange ∧ after.PushesInRange rows) (fun _ _ => True)))

instance (ring : Ring σ) (rows : List Row) : Decidable (ring.PushesInRange rows) :=
  ring.decidePushesInRange rows

/--
Whether a row can be appended without enlarging the window first. Nothing is on a screen.
-/
structure HasRoom (ring : Ring σ) : Prop where
  visibleRows_eq : ring.visibleRows = 0
  finish_lt : ring.finish < ring.writable + ring.window.capacity

theorem hasRoom_ofLogs (maxRows windowRows : Nat) (rows text attributes : σ) :
    (ofLogs maxRows windowRows rows text attributes).HasRoom where
  visibleRows_eq := rfl
  finish_lt := by
    have := Nat.pos_of_isPowerOfTwo (Window.ofRows windowRows).isPowerOfTwo_capacity
    simp only [ofLogs]
    omega

omit [ByteLog σ] in
theorem HasRoom.ensureRoom_eq (h : ring.HasRoom) : ensureRoom ring = .ok () ring := by
  have := h.visibleRows_eq
  have := Nat.pos_of_isPowerOfTwo ring.window.isPowerOfTwo_capacity
  have hends : Ends ensureRoom ring (fun _ after => after = ring) (fun _ _ => False) := by
    rw [ends_ensureRoom_iff, if_pos ⟨by omega, h.finish_lt⟩]
  obtain ⟨_, _, hrun, rfl⟩ := hends.exists_ok fun _ _ => id
  exact hrun

theorem ensureWritable_of_writable_le {index : Nat} (h : ring.writable ≤ index) :
    ensureWritableWith ensureRoom index ring = .ok () ring := by
  have hrun : ensureWritableWith ensureRoom index ring
      = thawRowsWith ensureRoom (ring.writable - index) ring := rfl
  rw [hrun, Nat.sub_eq_zero_of_le h]
  rfl

theorem HasRoom.ends_evict (h : ring.HasRoom) :
    Ends evict ring (fun _ after => after.HasRoom) (fun _ _ => True) := by
  have hvisibleRows := h.visibleRows_eq
  have hroom := h.finish_lt
  unfold evict
  rw [ends_bind, ends_get]
  split
  · unfold dropBefore
    rw [ends_bind, ends_get]
    split
    · rw [ends_bind]
      apply (ends_onArchive_frame _).imp
      · rintro entry _ ⟨archive, rfl⟩
        rw [ends_bind, ends_modify, ends_modify]
        exact { h with }
      · exact fun _ _ _ => trivial
    · rw [ends_bind, ends_modify, ends_modify]
      refine ⟨hvisibleRows, ?_⟩
      simp only [dropStaleCache]
      omega
  · exact h

structure HasAppended (ring : Ring σ) (index : Nat) : Prop extends ring.HasRoom where
  start_le : ring.start ≤ index
  writable_le : ring.writable ≤ index
  finish_eq : ring.finish = index + 1

theorem HasAppended.assign_eq {index : Nat} (h : ring.HasAppended index) (row : Row) :
    assign index row ring = .ok () { ring with window := ring.window.set index row } := by
  have hfinish := h.finish_eq
  have hends : Ends (assign index row) ring
      (fun _ after => after = { ring with window := ring.window.set index row })
      (fun _ _ => False) := by
    unfold assign assignWith editWith
    rw [ends_bind, ends_requireRow, if_pos ⟨h.start_le, by omega⟩, ends_bind, Ends,
      ensureWritable_of_writable_le h.writable_le]
    rfl
  obtain ⟨_, after, hrun, rfl⟩ := hends.exists_ok fun _ _ => id
  exact hrun

variable [LawfulLog σ]

/--
The window is enlarged only if it has a single slot, and that is always possible.
-/
theorem ends_settle_hasAppended {index : Nat} (hstart : ring.start ≤ index)
    (hwritable : ring.writable ≤ index) (hfinish : ring.finish = index + 1)
    (hvisibleRows : ring.visibleRows = 0)
    (hfits : ring.finish ≤ ring.writable + ring.window.capacity) :
    Ends (settleWith ensureRoom index) ring (fun _ after => after.HasAppended index)
      (fun e _ => Archive.IsFault σ e) := by
  have hpos := Nat.pos_of_isPowerOfTwo ring.window.isPowerOfTwo_capacity
  unfold settleWith
  rw [ends_bind, ends_get]
  dsimp only
  split
  · have hframe : Ends freezeOldest ring
        (fun _ after => ∃ archive, after = { ring with archive, writable := ring.writable + 1 })
        (fun _ _ => True) := by
      rw [ends_freezeOldest]
      exact Ends.of_forall (fun _ archive => ⟨archive, rfl⟩) fun _ _ => trivial
    apply (hframe.and (ends_freezeOldest_inRange ring)).imp
    · rintro _ _ ⟨⟨archive, rfl⟩, -⟩
      refine ⟨⟨hvisibleRows, ?_⟩, hstart, ?_, hfinish⟩
      all_goals
        dsimp only
        omega
    · exact fun e _ ⟨_, he, _⟩ => he
  · next hstay =>
    by_cases hroom : ring.finish < ring.writable + ring.window.capacity
    · have h : ring.HasRoom := ⟨hvisibleRows, hroom⟩
      rw [Ends, h.ensureRoom_eq]
      exact ⟨h, hstart, hwritable, hfinish⟩
    · have hcount : ring.finish - ring.writable = 1 := by omega
      rw [ends_ensureRoom_iff, if_neg (by omega), hvisibleRows, hcount,
        show max (add64 0 1) (1 + 1) = 2 by rfl]
      apply (ring.window.ends_grow_two ring.writable 1).imp
      · intro _ window hcapacity
        refine ⟨⟨rfl, ?_⟩, hstart, hwritable, hfinish⟩
        dsimp only
        omega
      · exact fun _ _ => False.elim

namespace Shows

theorem ends_append_hasAppended (h : ring.Shows list) (hroom : ring.HasRoom) :
    Ends append ring (fun index after => index = list.finish ∧ after.HasAppended index)
      (fun e _ => Archive.IsFault σ e) := by
  unfold append appendWith insertWith
  rw [ends_bind, ends_get, ends_bind, ends_requireBound, h.start_eq, h.finish_eq,
    if_pos ⟨Nat.le_add_right _ _, Nat.le_refl _⟩, ends_bind]
  apply (h.ends_evict.and hroom.ends_evict).imp
  · rintro _ next ⟨h, hroom⟩
    have hfinish : next.finish = list.finish := by
      rw [h.finish_eq, list.finish_evict]
    have hwritable : next.writable ≤ list.finish := hfinish ▸ h.writable_le_finish
    have hstart : next.start ≤ list.finish := h.start_eq ▸ list.start_evict_le_finish
    have hlt := hroom.finish_lt
    rw [ends_bind, ends_get]
    dsimp only
    rw [Nat.max_eq_left hstart, ends_bind, Ends, ensureWritable_of_writable_le hwritable]
    dsimp only
    rw [ends_bind, Ends, hroom.ensureRoom_eq]
    dsimp only
    rw [ends_bind, ends_modify, ends_bind]
    have hfits : next.finish + 1 ≤ next.writable
        + ((next.window.moveUp list.finish (next.finish - list.finish)).set list.finish
          Row.empty).capacity := by
      rw [Window.capacity_set, Window.capacity_moveUp]
      exact hlt
    refine Ends.imp (ends_settle_hasAppended hstart hwritable (congrArg (· + 1) hfinish)
      hroom.visibleRows_eq hfits) ?_ ?_
    · exact fun _ after hafter => ⟨rfl, hafter⟩
    · exact fun e _ he => he
  · exact fun e _ ⟨herr, _⟩ => herr.1

theorem ends_push (h : ring.Shows list) (hroom : ring.HasRoom) {row : Row} (hrow : row.FlagsDefined)
    (hrange : Ends (push row) ring (fun _ after => after.archive.InRange) (fun _ _ => True)) :
    Ends (push row) ring
      (fun _ after => after.HasRoom ∧ after.Shows (list.insert list.finish row))
      (fun e _ => Archive.IsFault σ e) := by
  have hshows := h.ends_appendWith makesRoom_ensureRoom
  unfold push at hrange ⊢
  rw [ends_bind] at hrange ⊢
  apply ((hshows.and (h.ends_append_hasAppended hroom)).and hrange).imp
  · rintro index next ⟨⟨⟨rfl, hnext⟩, -, happended⟩, hrange⟩
    rw [Ends, happended.assign_eq] at hrange ⊢
    have hplace := (Nat.max_eq_left list.start_evict_le_finish).symm
    have hput : Ends (put list.finish row) next
        (fun _ after => after.archive.InRange → after.Shows (list.insert list.finish row))
        (fun _ _ => False) :=
      ends_put_insert (Nat.le_refl _) hplace hnext hrow
    refine ⟨⟨happended.visibleRows_eq, ?_⟩, hput.of_ok rfl hrange⟩
    rw [Window.capacity_set]
    exact happended.finish_lt
  · exact fun e _ herr => herr.1.2

theorem ends_pushRows {before rows : List Row} (h : ring.Shows (RowList.ofRows maxRows before))
    (hroom : ring.HasRoom) (hrows : ∀ row ∈ rows, row.FlagsDefined)
    (hrange : ring.PushesInRange rows) :
    Ends (pushRows (Position.endOf before) rows) ring
      (fun cursor after => cursor = Position.endOf (before ++ rows)
        ∧ after.Shows (RowList.ofRows maxRows (before ++ rows)))
      (fun e _ => Archive.IsFault σ e) := by
  induction rows generalizing ring before with
  | nil =>
    rw [pushRows, ends_pure, List.append_nil]
    exact ⟨rfl, h⟩
  | cons row rows ih =>
    rw [List.forall_mem_cons] at hrows
    rw [pushRows, ends_bind]
    apply ((h.ends_push hroom hrows.1 (hrange.imp (fun _ _ h => h.1) fun _ _ _ => trivial)).and
      hrange).imp
    · rintro _ next ⟨⟨hroom, hnext⟩, -, hrange⟩
      rw [RowList.finish_ofRows, RowList.insert_ofRows] at hnext
      have hcursor : { line := next.finish - 1, column := row.size : Position }
          = Position.endOf (before ++ [row]) := by
        rw [Position.endOf_concat, hnext.finish_eq, RowList.finish_ofRows, List.length_append]
        rfl
      rw [ends_bind, ends_get, hcursor]
      have hrest := ih hnext hroom hrows.2 hrange
      rw [List.append_assoc] at hrest
      exact hrest
    · exact fun e _ herr => herr.1

end Shows

theorem create_eq_ok {σ : Type} [ByteLog σ] (maxRows : Nat) {windowRows : Nat}
    (h : windowRows ≤ 2 ^ 57) (rows texts attributes : σ) :
    create maxRows windowRows rows texts attributes
      =
    .ok (ofLogs maxRows windowRows rows texts attributes) := by
  rw [create, if_pos (Window.fits_initialCapacity h)]

theorem load_eq {σ : Type} [ByteLog σ] (rules : TextRules) {columns : Nat} (h : columns < 2 ^ 58)
    (text : List Char) (ring : Ring σ) :
    load rules columns text ring
      =
    pushRows { line := ring.finish, column := 0 } (rowsOfText rules columns text) ring := by
  unfold load
  rw [rowsOfText?_eq_some rules text h]
  rfl

theorem exists_load {σ : Type} [ByteLog σ] [ReliableLog σ] (rules : TextRules) {columns : Nat}
    (hcolumns : columns < 2 ^ 58) (text : List Char) (maxRows windowRows : Nat)
    (rows texts attributes : σ)
    (hrange : (ofLogs maxRows windowRows rows texts attributes).PushesInRange
      (rowsOfText rules columns text)) :
    ∃ after, load rules columns text (ofLogs maxRows windowRows rows texts attributes)
        = .ok (Position.endOf (rowsOfText rules columns text)) after
      ∧ after.Shows (RowList.ofRows maxRows (rowsOfText rules columns text)) := by
  have hshows := Shows.ofLogs maxRows windowRows rows texts attributes
  rw [← RowList.ofRows_nil] at hshows
  obtain ⟨_, after, hrun, rfl, hafter⟩ :=
    (hshows.ends_pushRows (hasRoom_ofLogs maxRows windowRows rows texts attributes)
      (flagsDefined_of_mem_rowsOfText rules columns text) hrange).exists_ok
      fun e _ he => Archive.not_isFault e he
  refine ⟨after, ?_, hafter⟩
  rw [load_eq rules hcolumns]
  exact hrun

theorem column_endOf_rowsOfText_lt (rules : TextRules) {columns : Nat} (hcolumns : columns < 2 ^ 58)
    (text : List Char) : (Position.endOf (rowsOfText rules columns text)).column < 2 ^ 64 := by
  rw [Position.endOf]
  cases hlast : (rowsOfText rules columns text).getLast? with
  | none => exact Nat.two_pow_pos 64
  | some last =>
    obtain ⟨line, -, hpiece⟩ := List.mem_flatMap.mp (List.mem_of_getLast? hlast)
    have hsize := (Row.plain_ofLine rules line).wellFormed.size_le_of_mem_wrap hpiece
    rw [Option.elim_some]
    dsimp only
    omega

theorem moveMarkers_endOf (rules : TextRules) (columns : Nat) {columns' : Nat}
    (hcolumns' : columns' < 2 ^ 58) (text : List Char)
    (h : (rowsOfText rules columns text).length ≤ max maxRows 1) :
    (RowList.ofRows maxRows (rowsOfText rules columns text)).moveMarkers columns'
        [Position.endOf (rowsOfText rules columns text)]
      =
    [Position.endOf (rowsOfText rules columns' text)] := by
  have hlast := @softWrapped_getLast_rowsOfText rules columns text
  have hrewrap := rewrap_rowsOfText rules columns text columns'
  have hcolumn := column_endOf_rowsOfText_lt rules hcolumns' text
  generalize rowsOfText rules columns text = rows at *
  have hzero : rows.length - max maxRows 1 = 0 := by omega
  rw [RowList.moveMarkers, RowList.ofRows]
  dsimp only
  rw [hzero, List.drop_zero]
  rw [← hrewrap] at hcolumn ⊢
  split
  · next hnil =>
    rw [hnil]
    rfl
  · next hne =>
    rw [List.map_singleton,
      Position.rewrap64_endOf hne (fun last => hlast) (by omega) hcolumn]

/--
Text that is loaded without losing a row and brought to another number of columns gives the rows, the
indices and the cursor that loading it in that number of columns gives, even if rows are lost then. Rows
and windows are no larger than an array can be.
-/
theorem load_rewrap {σ τ : Type} [ByteLog σ] [ReliableLog σ] [ByteLog τ] [ReliableLog τ]
    (rules : TextRules) (text : List Char) {columns columns' windowRows windowRows' : Nat}
    (hcolumns : columns < 2 ^ 58) (hcolumns' : columns' < 2 ^ 58) (hwindow : windowRows ≤ 2 ^ 57)
    (hwindow' : windowRows' ≤ 2 ^ 57) (maxRows : Nat) (rows texts attributes : σ)
    (rows' texts' attributes' : τ)
    (hrange : (ofLogs maxRows windowRows rows texts attributes).PushesInRange
      (rowsOfText rules columns text))
    (hrange' : (ofLogs maxRows windowRows' rows' texts' attributes').PushesInRange
      (rowsOfText rules columns' text))
    (hfreezes : (final (load rules columns text)
      (ofLogs maxRows windowRows rows texts attributes)).FreezesInRange)
    (hstart : (final (load rules columns text)
      (ofLogs maxRows windowRows rows texts attributes)).start = 0) :
    ∃ empty cursor loaded cursor' rewrapped empty' direct,
      create maxRows windowRows rows texts attributes = .ok empty
        ∧ load rules columns text empty = .ok cursor loaded
        ∧ rewrap columns' [cursor] loaded = .ok [cursor'] rewrapped
        ∧ create maxRows windowRows' rows' texts' attributes' = .ok empty'
        ∧ load rules columns' text empty' = .ok cursor' direct
        ∧ rewrapped.start = direct.start ∧ rewrapped.finish = direct.finish
        ∧ rewrapped.ReadsAs ((rowsOfText rules columns' text).drop direct.start)
        ∧ direct.ReadsAs ((rowsOfText rules columns' text).drop direct.start) := by
  obtain ⟨loaded, hload, hloaded⟩ :=
    exists_load rules hcolumns text maxRows windowRows rows texts attributes hrange
  obtain ⟨direct, hload', hdirect⟩ :=
    exists_load rules hcolumns' text maxRows windowRows' rows' texts' attributes' hrange'
  rw [final, hload] at hfreezes hstart
  dsimp only at hfreezes hstart
  have hfits : (rowsOfText rules columns text).length ≤ max maxRows 1 := by
    rw [hloaded.start_eq, RowList.ofRows] at hstart
    dsimp only at hstart
    omega
  obtain ⟨_, rewrapped, hrun, rfl, hrewrapped⟩ :=
    (hloaded.ends_rewrap_moveMarkers
      (RowList.wellFormed_ofRows (wellFormed_of_mem_rowsOfText rules columns text)) hfreezes columns'
      [Position.endOf (rowsOfText rules columns text)]).exists_ok
      fun e _ he => Archive.not_isFault e he.1
  rw [moveMarkers_endOf rules columns hcolumns' text hfits] at hrun
  rw [RowList.rewrap_ofRows hfits, rewrap_rowsOfText] at hrewrapped
  have hwellFormed : (RowList.ofRows maxRows (rowsOfText rules columns' text)).WellFormed :=
    RowList.wellFormed_ofRows (wellFormed_of_mem_rowsOfText rules columns' text)
  refine ⟨_, _, loaded, _, rewrapped, _, direct, create_eq_ok maxRows hwindow rows texts attributes,
    hload, hrun, create_eq_ok maxRows hwindow' rows' texts' attributes', hload', ?_, ?_, ?_, ?_⟩
  · rw [hrewrapped.start_eq, hdirect.start_eq]
  · rw [hrewrapped.finish_eq, hdirect.finish_eq]
  · rw [hdirect.start_eq]
    exact hrewrapped.readsAs hwellFormed
  · rw [hdirect.start_eq]
    exact hdirect.readsAs hwellFormed

end Ring

def TextRules.ofWidth (width : Char → Option Nat) : TextRules where
  width
  clusters text := text.map ([·])
  flatten_clusters := List.flatMap_singleton'
  ne_nil_of_mem_clusters text := by
    rw [List.forall_mem_map]
    exact fun char _ => List.cons_ne_nil char []

/--
A wide character with a mark, a tab and a blank line, in ten columns and then in three. The oldest of
five rows is lost then.
-/
theorem Ring.load_rewrap_evict :
    let rules := TextRules.ofWidth fun char =>
      some (if char = 'w' then 2 else if char = '^' then 0 else 1)
    let text := ['a', 'w', '^', '\t', 'b', '\n', '\n', 'c']
    ∃ empty empty' loaded rewrapped direct : Ring MemoryLog,
      create 4 1 default default default = .ok empty
        ∧ create 4 4 default default default = .ok empty'
        ∧ load rules 10 text empty = .ok ⟨2, 1⟩ loaded
        ∧ rewrap 3 [⟨2, 1⟩] loaded = .ok [⟨4, 1⟩] rewrapped
        ∧ load rules 3 text empty' = .ok ⟨4, 1⟩ direct
        ∧ rewrapped.start = 1 ∧ direct.start = 1
        ∧ rewrapped.ReadsAs ((rowsOfText rules 3 text).drop 1)
        ∧ direct.ReadsAs ((rowsOfText rules 3 text).drop 1) := by
  intro rules text
  obtain ⟨empty, cursor, loaded, cursor', rewrapped, empty', direct, hempty, hload, hrun, hempty',
      hload', hstart, -, hreads, hreads'⟩ :=
    load_rewrap rules text (by decide : 10 < 2 ^ 58) (by decide : 3 < 2 ^ 58) (by decide : 1 ≤ 2 ^ 57)
      (by decide : 4 ≤ 2 ^ 57) 4 (default : MemoryLog) default default (default : MemoryLog) default
      default (by decide +kernel) (by decide +kernel) (by decide +kernel) (by decide +kernel)
  obtain rfl := Except.ok.inj hempty
  obtain rfl := Except.ok.inj hempty'
  have hcursor : outcome (load rules 10 text) (ofLogs 4 1 default default default : Ring MemoryLog)
      = .ok ⟨2, 1⟩ := by decide +kernel
  have hcursor' : outcome (load rules 3 text) (ofLogs 4 4 default default default : Ring MemoryLog)
      = .ok ⟨4, 1⟩ := by decide +kernel
  have hdirect : (final (load rules 3 text)
      (ofLogs 4 4 default default default : Ring MemoryLog)).start = 1 := by decide +kernel
  rw [outcome, hload] at hcursor
  rw [outcome, hload'] at hcursor'
  rw [final, hload'] at hdirect
  obtain rfl := Except.ok.inj hcursor
  obtain rfl := Except.ok.inj hcursor'
  dsimp only at hdirect
  rw [hdirect] at hstart hreads hreads'
  exact ⟨_, _, loaded, rewrapped, direct, hempty, hempty', hload, hrun, hload', hstart, hdirect,
    hreads, hreads'⟩

/--
A single letter cannot be loaded in as many columns as can be counted.
-/
theorem Ring.load_capacity :
    outcome (load (TextRules.ofWidth fun _ => some 1) 18446744073709551615 ['a'])
        (ofLogs 4 1 default default default : Ring MemoryLog)
      = .error .capacity := by
  decide +kernel

end Scrollback
