import Scrollback.Proofs.Row.Line

/-!
This module contains the layouts of a row that begin a new piece only when a glyph does not fit, and the
proof that splitting the row gives one of them and that there is no other.
-/

namespace Scrollback

namespace Row

def width (row : Row) : Nat :=
  (row.leads.map Cell.width).sum

/--
The pieces are the row, cut before glyphs that do not fit in the piece before them. Only a glyph on its
own may be wider than a piece.
-/
structure IsPacking (row : Row) (columns : Nat) (pieces : List Row) : Prop where
  ne_nil : pieces ≠ []
  join_eq : join pieces = row
  softWrapped : ∀ piece ∈ pieces.dropLast, piece.softWrapped = true
  begins : ∀ piece ∈ pieces.tail, ∃ lead cells, piece.cells = lead :: cells ∧ lead.fragment = false
  fits : ∀ piece ∈ pieces, piece.width ≤ max columns 1 ∨ piece.leads.length = 1
  full : pieces.IsChain fun piece next =>
    ∀ lead ∈ next.leads.head?, max columns 1 < piece.width + lead.width

/--
The pieces are a packing of the row in which none without a glyph comes before another one.
-/
structure IsLayout (row : Row) (columns : Nat) (pieces : List Row) : Prop
    extends IsPacking row columns pieces where
  leads_ne_nil : ∀ piece ∈ pieces.dropLast, piece.leads ≠ []

variable {row piece next : Row} {pieces : List Row} {columns : Nat}

theorem leads_push_lead (row : Row) {lead : Cell} (h : lead.fragment = false) :
    (row.push lead).leads = row.leads ++ [lead] := by
  rw [leads, push, List.filter_append, List.filter_singleton, h]
  rfl

theorem leads_push_fragment (row : Row) {cell : Cell} (h : cell.fragment = true) :
    (row.push cell).leads = row.leads := by
  rw [leads, push, List.filter_append, List.filter_singleton, h]
  exact List.append_nil _

theorem width_push (row : Row) (cell : Cell) : (row.push cell).width = row.width + cell.width := by
  cases h : cell.fragment with
  | false =>
    rw [width, leads_push_lead row h, List.map_append, List.sum_append, List.map_singleton,
      List.sum_singleton]
    rfl
  | true =>
    rw [width, leads_push_fragment row h, Cell.width, h]
    rfl

theorem leads_eq_cons {lead : Cell} {cells : List Cell} (hcells : row.cells = lead :: cells)
    (hlead : lead.fragment = false) : row.leads = lead :: cells.filter (!·.fragment) := by
  rw [leads, hcells, List.filter_cons_of_pos (by rw [hlead]; rfl)]

theorem leads_eq_nil_of_width (hpos : ∀ lead ∈ row.leads, 0 < lead.width) (h : row.width = 0) :
    row.leads = [] := by
  rw [width] at h
  cases hleads : row.leads with
  | nil => rfl
  | cons lead leads =>
    rw [hleads, List.forall_mem_cons] at hpos
    rw [hleads, List.map_cons, List.sum_cons] at h
    omega

theorem join_singleton (row : Row) : join [row] = row := by
  rw [join, List.flatMap_singleton]
  rfl

theorem join_cons_cons (piece next : Row) (pieces : List Row) :
    join (piece :: next :: pieces)
      =
    { cells := piece.cells ++ (join (next :: pieces)).cells
      softWrapped := (join (next :: pieces)).softWrapped } := by
  rw [join, join, List.flatMap_cons, List.getLast?_cons_cons]

namespace IsLayout

theorem singleton (h : row.width ≤ max columns 1 ∨ row.leads.length = 1) :
    row.IsLayout columns [row] where
  ne_nil := List.cons_ne_nil _ _
  join_eq := join_singleton row
  softWrapped := by simp
  begins := by simp
  fits := by simpa using h
  full := List.isChain_singleton _
  leads_ne_nil := by simp

theorem cons (piece : Row) (h : row.IsLayout columns (next :: pieces)) {lead : Cell} {cells : List Cell}
    (hnext : next.cells = lead :: cells) (hlead : lead.fragment = false)
    (hsoftWrapped : piece.softWrapped = true)
    (hfits : piece.width ≤ max columns 1 ∨ piece.leads.length = 1)
    (hfull : max columns 1 < piece.width + lead.width) (hleads : piece.leads ≠ []) :
    IsLayout { row with cells := piece.cells ++ row.cells } columns (piece :: next :: pieces) where
  ne_nil := List.cons_ne_nil _ _
  join_eq := by rw [join_cons_cons, h.join_eq]
  softWrapped := by
    rw [List.dropLast_cons_cons, List.forall_mem_cons]
    exact ⟨hsoftWrapped, h.softWrapped⟩
  begins := by
    rw [List.tail_cons, List.forall_mem_cons]
    exact ⟨⟨lead, cells, hnext, hlead⟩, h.begins⟩
  fits := by
    rw [List.forall_mem_cons]
    exact ⟨hfits, h.fits⟩
  full := by
    rw [List.isChain_cons_cons, leads_eq_cons hnext hlead]
    refine ⟨?_, h.full⟩
    rintro _ ⟨⟩
    exact hfull
  leads_ne_nil := by
    rw [List.dropLast_cons_cons, List.forall_mem_cons]
    exact ⟨hleads, h.leads_ne_nil⟩

theorem tail (h : row.IsLayout columns (piece :: next :: pieces)) :
    (join (next :: pieces)).IsLayout columns (next :: pieces) where
  ne_nil := List.cons_ne_nil _ _
  join_eq := rfl
  softWrapped := fun other hother => h.softWrapped other (List.mem_cons_of_mem _ hother)
  begins := fun other hother => h.begins other (List.mem_cons_of_mem _ hother)
  fits := fun other hother => h.fits other (List.mem_cons_of_mem _ hother)
  full := h.full.tail
  leads_ne_nil := fun other hother => h.leads_ne_nil other (List.mem_cons_of_mem _ hother)

end IsLayout

theorem exists_ofPieces_eq_cons (softWrapped : Bool) (piece : List Cell) (later : List (List Cell)) :
    ∃ next rest, ofPieces softWrapped piece later = next :: rest ∧ next.cells = piece := by
  cases later with
  | nil => exact ⟨_, _, rfl, rfl⟩
  | cons next later => exact ⟨_, _, rfl, rfl⟩

theorem isLayout_ofPieces (columns : Nat) (cells : List Cell) (before : Row)
    (hpos : ∀ lead ∈ leads { cells := before.cells ++ cells }, 0 < lead.width)
    (hfits : before.width ≤ max columns 1 ∨ before.leads.length = 1) :
    IsLayout { before with cells := before.cells ++ cells } columns
      (ofPieces before.softWrapped
        (before.cells ++ (wrapCells (max columns 1) before.width cells).1)
        (wrapCells (max columns 1) before.width cells).2) := by
  induction cells generalizing before with
  | nil =>
    rw [wrapCells, ofPieces, List.append_nil]
    exact .singleton hfits
  | cons cell cells ih =>
    -- The cell goes to the piece that is under construction, unless it is a glyph that does not fit.
    have hpush (h : (before.push cell).width ≤ max columns 1 ∨ (before.push cell).leads.length = 1) :
        IsLayout { before with cells := before.cells ++ cell :: cells } columns
          (ofPieces before.softWrapped
            (before.cells ++ cell :: (wrapCells (max columns 1) (before.width + cell.width) cells).1)
            (wrapCells (max columns 1) (before.width + cell.width) cells).2) := by
      have hlayout := ih (before.push cell) (by simpa [push] using hpos) h
      rw [width_push] at hlayout
      simp only [push, List.append_assoc, List.singleton_append] at hlayout
      exact hlayout
    rw [leads, List.filter_append, List.forall_mem_append] at hpos
    cases hcell : cell.fragment with
    | true =>
      have hwidth : cell.width = 0 := by
        rw [Cell.width, hcell]
        rfl
      rw [width_push, leads_push_fragment before hcell, hwidth, Nat.add_zero] at hpush
      rw [wrapCells, hcell]
      exact hpush hfits
    | false =>
      rw [wrapCells_lead hcell]
      split
      · next hopen =>
        -- The next piece begins with the glyph, which may stand on its own whatever its width.
        have hfirst := leads_push_lead { before with cells := [] } hcell
        have hwidth := width_push { before with cells := [] } cell
        have hlayout := ih (push { before with cells := [] } cell) hpos.2 (Or.inr (by rw [hfirst]; rfl))
        rw [hwidth, width, leads, List.filter_nil, List.map_nil, List.sum_nil, Nat.zero_add] at hlayout
        obtain ⟨next, rest, heq, hnext⟩ := exists_ofPieces_eq_cons before.softWrapped
          (cell :: (wrapCells (max columns 1) cell.width cells).1)
          (wrapCells (max columns 1) cell.width cells).2
        have hleads : before.leads ≠ [] := by
          intro hnil
          rw [width, hnil] at hopen
          exact Nat.lt_irrefl _ hopen.1
        rw [List.append_nil, ofPieces, heq]
        exact IsLayout.cons { before with softWrapped := true } (heq ▸ hlayout) hnext hcell rfl hfits
          hopen.2 hleads
      · next hopen =>
        apply hpush
        rw [width_push, leads_push_lead before hcell, List.length_append, List.length_singleton]
        rcases Nat.eq_zero_or_pos before.width with hzero | hwidth
        · rw [leads_eq_nil_of_width hpos.1 hzero]
          exact Or.inr rfl
        · left
          omega

theorem isLayout_wrap (h : ∀ lead ∈ row.leads, 0 < lead.width) (columns : Nat) :
    row.IsLayout columns (row.wrap columns) :=
  isLayout_ofPieces columns row.cells { row with cells := [] } h (Or.inl (Nat.zero_le _))

theorem WellFormed.size_le_of_mem_wrap (h : row.WellFormed) (hpiece : piece ∈ row.wrap columns) :
    piece.size ≤ max (max columns 1) 255 := by
  have hlayout := isLayout_wrap (fun lead hlead => (h.isLead lead hlead).width_pos) columns
  rw [(h.wrap columns piece hpiece).size_eq, ← width]
  rcases hlayout.fits piece hpiece with hfits | hsingle
  · exact Nat.le_trans hfits (Nat.le_max_left _ _)
  · obtain ⟨lead, hlead⟩ := List.length_eq_one_iff.mp hsingle
    have hmem : lead ∈ piece.leads := hlead ▸ List.mem_singleton_self lead
    have hwidth := ((h.wrap columns piece hpiece).isLead lead hmem).width_eq
    have hlt := lead.style.columns.toNat_lt
    rw [width, hlead, List.map_singleton, List.sum_singleton]
    omega

namespace IsLayout

variable {piece' : Row} {pieces' : List Row}

theorem cells_eq_append (h : row.IsLayout columns (piece :: pieces)) :
    row.cells = piece.cells ++ pieces.flatMap (·.cells) := by
  rw [← h.join_eq, join, List.flatMap_cons]

/--
No other layout has more in its first piece: what follows there is a glyph that does not fit.
-/
theorem length_le (h : row.IsLayout columns (piece :: pieces))
    (h' : row.IsLayout columns (piece' :: pieces')) : piece'.cells.length ≤ piece.cells.length := by
  by_contra hlt
  have hcells := h.cells_eq_append.symm.trans h'.cells_eq_append
  obtain ⟨more, hpiece', hmore⟩ : ∃ more, piece'.cells = piece.cells ++ more
      ∧ pieces.flatMap (·.cells) = more ++ pieces'.flatMap (·.cells) := by
    rcases List.append_eq_append_iff.mp hcells with ⟨more, hmore⟩ | ⟨more, hmore, -⟩
    · exact ⟨more, hmore⟩
    · rw [hmore, List.length_append] at hlt
      omega
  have hne : more ≠ [] := by
    rintro rfl
    rw [hpiece', List.append_nil] at hlt
    exact hlt (Nat.le_refl _)
  cases pieces with
  | nil =>
    rw [List.flatMap_nil, eq_comm, List.append_eq_nil_iff] at hmore
    exact hne hmore.1
  | cons next pieces =>
    obtain ⟨lead, cells, hnext, hlead⟩ := h.begins next List.mem_cons_self
    obtain ⟨first, rest, rfl⟩ := List.exists_cons_of_ne_nil hne
    rw [List.flatMap_cons, hnext, List.cons_append, List.cons_append, List.cons.injEq] at hmore
    obtain ⟨rfl, -⟩ := hmore
    have hfull := List.rel_of_isChain_cons_cons h.full lead (by rw [leads_eq_cons hnext hlead]; rfl)
    have hleads := List.length_pos_iff.mpr (h.leads_ne_nil piece (by simp))
    have hleads' : piece'.leads = piece.leads ++ lead :: rest.filter (!·.fragment) := by
      rw [leads, hpiece', List.filter_append, List.filter_cons_of_pos (by rw [hlead]; rfl)]
      rfl
    have hwidth : piece.width + lead.width ≤ piece'.width := by
      rw [width, width, hleads', List.map_append, List.sum_append, List.map_cons, List.sum_cons]
      omega
    have hfits := h'.fits piece' List.mem_cons_self
    rw [hleads', List.length_append, List.length_cons] at hfits
    omega

theorem cells_join_ne_nil (h : row.IsLayout columns (piece :: next :: pieces)) :
    (join (next :: pieces)).cells ≠ [] := by
  obtain ⟨lead, cells, hnext, -⟩ := h.begins next List.mem_cons_self
  rw [join, List.flatMap_cons, hnext, List.cons_append]
  exact List.cons_ne_nil _ _

theorem unique (h : row.IsLayout columns pieces) (h' : row.IsLayout columns pieces') :
    pieces = pieces' := by
  induction pieces generalizing row pieces' with
  | nil => exact absurd rfl h.ne_nil
  | cons piece pieces ih =>
    cases pieces' with
    | nil => exact absurd rfl h'.ne_nil
    | cons piece' pieces' =>
      obtain ⟨hcells, hrest⟩ : piece.cells = piece'.cells
          ∧ (join pieces).cells = (join pieces').cells :=
        List.append_inj (h.cells_eq_append.symm.trans h'.cells_eq_append)
          (Nat.le_antisymm (h'.length_le h) (h.length_le h'))
      cases pieces with
      | nil =>
        cases pieces' with
        | nil =>
          rw [← join_singleton piece, h.join_eq, ← h'.join_eq, join_singleton]
        | cons next' pieces' => exact absurd hrest.symm h'.cells_join_ne_nil
      | cons next pieces =>
        cases pieces' with
        | nil => exact absurd hrest h.cells_join_ne_nil
        | cons next' pieces' =>
          have hsoftWrapped : piece.softWrapped = piece'.softWrapped := by
            rw [h.softWrapped piece (by simp), h'.softWrapped piece' (by simp)]
          have hjoin : join (next :: pieces) = join (next' :: pieces') := by
            have hrow := h.join_eq.trans h'.join_eq.symm
            rw [join_cons_cons, join_cons_cons, Row.mk.injEq] at hrow
            exact congrArg₂ Row.mk hrest hrow.2
          have htail := h'.tail
          rw [← hjoin] at htail
          rw [ih h.tail htail, show piece = piece' from congrArg₂ Row.mk hcells hsoftWrapped]

end IsLayout

/--
A glyph that is too wide for a piece may stand in the first one or behind one without cells. Both are
as full as they can be, so that this alone does not say how a row is split.
-/
theorem isPacking_not_unique :
    let wide : Row := { cells := Cell.glyph 'x' { columns := 2 } }
    (∀ lead ∈ wide.leads, lead.style.columns ≠ 0)
      ∧ wide.IsPacking 1 [{ softWrapped := true }, wide] ∧ wide.IsPacking 1 (wide.wrap 1)
      ∧ [{ softWrapped := true }, wide] ≠ wide.wrap 1 := by
  intro wide
  refine ⟨by decide, ?_, (isLayout_wrap (by decide) 1).toIsPacking, by decide⟩
  constructor
  · decide
  · decide
  · decide
  · rw [List.tail_cons, List.forall_mem_singleton]
    exact ⟨_, _, rfl, rfl⟩
  · decide
  · rw [List.isChain_pair]
    decide

/--
A row is split into the only pieces that each take all glyphs that fit, so that pieces put together are
split again as the row itself is.
-/
theorem isLayout_iff_eq_wrap {row : Row} (h : ∀ lead ∈ row.leads, lead.style.columns ≠ 0)
    {columns : Nat} (hcolumns : columns < 2 ^ 58) :
    ∃ pieces, row.wrap? columns = some pieces
      ∧ (∀ pieces', row.IsLayout columns pieces' ↔ pieces' = pieces)
      ∧ ∀ columns', (join pieces).wrap? columns' = row.wrap? columns' := by
  have hpos : ∀ lead ∈ row.leads, 0 < lead.width := by
    intro lead hlead
    have hfragment := (List.mem_filter.mp hlead).2
    rw [Bool.not_eq_true'] at hfragment
    rw [Cell.width, hfragment, if_neg Bool.false_ne_true, Nat.pos_iff_ne_zero]
    exact fun hzero => h lead hlead (UInt8.toNat_inj.mp hzero)
  refine ⟨row.wrap columns, row.wrap?_eq_some hcolumns, fun pieces' => ?_, fun columns' => ?_⟩
  · constructor
    · exact fun hpieces => hpieces.unique (isLayout_wrap hpos columns)
    · rintro rfl
      exact isLayout_wrap hpos columns
  · rw [join_wrap]

/--
A fragment without its glyph, then glyphs of two, one and three columns.
-/
theorem isLayout_iff_eq_wrap_stray :
    let stray : Cell := { char := 'w', fragment := true }
    let row : Row :=
      { cells := stray :: Cell.glyph 'x' { columns := 2 } ++ Cell.glyph 'y' {}
          ++ Cell.glyph 'z' { columns := 3 } }
    let pieces : List Row :=
      [{ cells := stray :: Cell.glyph 'x' { columns := 2 }, softWrapped := true },
        { cells := Cell.glyph 'y' {}, softWrapped := true },
        { cells := Cell.glyph 'z' { columns := 3 } }]
    (∀ lead ∈ row.leads, lead.style.columns ≠ 0) ∧ row.IsLayout 2 pieces
      ∧ row.wrap? 2 = some pieces ∧ (join pieces).wrap? 3 = row.wrap? 3 := by
  intro stray row pieces
  have h : ∀ lead ∈ row.leads, lead.style.columns ≠ 0 := by decide
  obtain ⟨_, hwrap, hlayout, hwrap'⟩ := isLayout_iff_eq_wrap h (by decide : 2 < 2 ^ 58)
  obtain rfl : _ = pieces := Option.some.inj (hwrap.symm.trans (by decide))
  exact ⟨h, (hlayout pieces).mpr rfl, hwrap, hwrap' 3⟩

end Row

end Scrollback
