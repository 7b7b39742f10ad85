import Mathlib.Data.List.TakeWhile
import Scrollback.Layout.Basic

/-!
This module contains the laws of placing anchors in a layout under construction.
-/

namespace Scrollback

theorem takeWhile_append_takeWhile_dropWhile {α : Type} {p q : α → Bool}
    (h : ∀ a, p a = true → q a = true) (l : List α) :
    l.takeWhile p ++ (l.dropWhile p).takeWhile q = l.takeWhile q
      ∧ (l.dropWhile p).dropWhile q = l.dropWhile q := by
  -- A list is searched in two steps as in one if the second step goes further than the first.
  induction l with
  | nil => exact ⟨rfl, rfl⟩
  | cons a l ih =>
    rw [List.takeWhile_cons, List.dropWhile_cons]
    split
    · next ha =>
      rw [List.takeWhile_cons_of_pos (h a ha), List.dropWhile_cons_of_pos (h a ha), List.cons_append,
        ih.1]
      exact ⟨rfl, ih.2⟩
    · exact ⟨rfl, rfl⟩

attribute [ext] Layout

namespace Layout

def Sorted (layout : Layout) : Prop :=
  layout.pending.Pairwise (·.offset ≤ ·.offset)

theorem sorted_ofAnchors (columns : Nat) (anchors : List Anchor) :
    (ofAnchors columns anchors).Sorted := by
  apply (List.pairwise_mergeSort _ _ (pendingAnchors anchors)).imp
  · simp
  · simp only [decide_eq_true_eq]
    omega
  · simp only [Bool.or_eq_true, decide_eq_true_eq]
    omega

def placeAll (placeOf : Nat → Nat × Nat) (placed : Array (Option (Nat × Nat))) :
    List PendingAnchor → Array (Option (Nat × Nat))
  | [] => placed
  | anchor :: anchors =>
    let place := placeOf anchor.offset
    placeAll placeOf
      (placed.setIfInBounds anchor.marker (some (place.1, add64 place.2 anchor.cells))) anchors

variable (layout : Layout)

theorem placeWhile_go_eq (reached : Nat → Bool) (columnOf : Nat → Nat)
    (pending : List PendingAnchor) :
    placeWhile.go reached columnOf layout pending
      =
    { layout with
      pending := pending.dropWhile (reached ·.offset)
      placed := placeAll (fun offset => (layout.entries.size - 1, columnOf offset)) layout.placed
        (pending.takeWhile (reached ·.offset)) } := by
  induction pending generalizing layout with
  | nil => rfl
  | cons anchor pending ih =>
    rw [placeWhile.go, List.dropWhile_cons, List.takeWhile_cons]
    split
    · rw [ih]
      rfl
    · rfl

theorem placeWhile_eq (reached : Nat → Bool) (columnOf : Nat → Nat) :
    layout.placeWhile reached columnOf
      =
    { layout with
      pending := layout.pending.dropWhile (reached ·.offset)
      placed := placeAll (fun offset => (layout.entries.size - 1, columnOf offset)) layout.placed
        (layout.pending.takeWhile (reached ·.offset)) } :=
  layout.placeWhile_go_eq reached columnOf layout.pending

@[simp]
theorem columns_placeWhile (reached : Nat → Bool) (columnOf : Nat → Nat) :
    (layout.placeWhile reached columnOf).columns = layout.columns := by
  rw [placeWhile_eq]

@[simp]
theorem entries_placeWhile (reached : Nat → Bool) (columnOf : Nat → Nat) :
    (layout.placeWhile reached columnOf).entries = layout.entries := by
  rw [placeWhile_eq]

@[simp]
theorem column_placeWhile (reached : Nat → Bool) (columnOf : Nat → Nat) :
    (layout.placeWhile reached columnOf).column = layout.column := by
  rw [placeWhile_eq]

@[simp]
theorem columns_placeBefore (limit : Nat) (columnOf : Nat → Nat) :
    (layout.placeBefore limit columnOf).columns = layout.columns :=
  layout.columns_placeWhile _ _

@[simp]
theorem entries_placeBefore (limit : Nat) (columnOf : Nat → Nat) :
    (layout.placeBefore limit columnOf).entries = layout.entries :=
  layout.entries_placeWhile _ _

@[simp]
theorem column_placeBefore (limit : Nat) (columnOf : Nat → Nat) :
    (layout.placeBefore limit columnOf).column = layout.column :=
  layout.column_placeWhile _ _

@[simp]
theorem columns_take (columns : Nat) : (layout.take columns).columns = layout.columns :=
  rfl

@[simp]
theorem entries_take (columns : Nat) : (layout.take columns).entries = layout.entries :=
  rfl

@[simp]
theorem column_take (columns : Nat) : (layout.take columns).column = layout.column + columns :=
  rfl

theorem placeAll_append (placeOf : Nat → Nat × Nat) (placed : Array (Option (Nat × Nat)))
    (anchors anchors' : List PendingAnchor) :
    placeAll placeOf placed (anchors ++ anchors')
      =
    placeAll placeOf (placeAll placeOf placed anchors) anchors' := by
  induction anchors generalizing placed with
  | nil => rfl
  | cons anchor anchors ih => exact ih _

theorem placeAll_congr {placeOf placeOf' : Nat → Nat × Nat}
    (placed : Array (Option (Nat × Nat))) {anchors : List PendingAnchor}
    (h : ∀ anchor ∈ anchors, placeOf anchor.offset = placeOf' anchor.offset) :
    placeAll placeOf placed anchors = placeAll placeOf' placed anchors := by
  induction anchors generalizing placed with
  | nil => rfl
  | cons anchor anchors ih =>
    rw [List.forall_mem_cons] at h
    rw [placeAll, placeAll, h.1, ih _ h.2]

theorem placeAll_placeAll {placeOf placeOf' : Nat → Nat × Nat} {limit : Nat}
    (placed : Array (Option (Nat × Nat))) {before later : List PendingAnchor}
    (hbefore : ∀ anchor ∈ before, anchor.offset < limit)
    (hlater : ∀ anchor ∈ later, limit ≤ anchor.offset) :
    placeAll placeOf' (placeAll placeOf placed before) later
      =
    placeAll (fun offset => if offset < limit then placeOf offset else placeOf' offset) placed
      (before ++ later) := by
  generalize hboth : (fun offset => if offset < limit then placeOf offset else placeOf' offset) = both
  have hfirst : placeAll placeOf placed before = placeAll both placed before := by
    apply placeAll_congr
    intro anchor hanchor
    rw [← hboth]
    exact (if_pos (hbefore anchor hanchor)).symm
  rw [placeAll_append, hfirst]
  apply placeAll_congr
  intro anchor hanchor
  rw [← hboth]
  exact (if_neg (Nat.not_lt.mpr (hlater anchor hanchor))).symm

/--
Whether a layout differs from one before it, as far as anchors go, in that the ones before an offset
were placed where `placeOf` says.
-/
structure PlacedBefore (layout after : Layout) (limit : Nat) (placeOf : Nat → Nat × Nat) : Prop where
  pending_eq : after.pending = layout.pending.dropWhile (·.offset < limit)
  placed_eq : after.placed
    = placeAll placeOf layout.placed (layout.pending.takeWhile (·.offset < limit))

theorem placedBefore_placeBefore (limit : Nat) (columnOf : Nat → Nat) :
    PlacedBefore layout (layout.placeBefore limit columnOf) limit
      fun offset => (layout.entries.size - 1, columnOf offset) := by
  rw [placeBefore, placeWhile_eq]
  exact ⟨rfl, rfl⟩

theorem placedBefore_refl {layout : Layout} {limit : Nat}
    (h : ∀ anchor ∈ layout.pending, limit ≤ anchor.offset) (placeOf : Nat → Nat × Nat) :
    PlacedBefore layout layout limit placeOf := by
  cases hpending : layout.pending with
  | nil => exact ⟨by simp [hpending], by simp [hpending, placeAll]⟩
  | cons anchor pending =>
    have hlimit : ¬ anchor.offset < limit := by
      have := h anchor (hpending ▸ List.mem_cons_self)
      omega
    exact ⟨by simp [hpending, hlimit], by simp [hpending, hlimit, placeAll]⟩

theorem PlacedBefore.congr {layout after : Layout} {limit : Nat} {placeOf placeOf' : Nat → Nat × Nat}
    (h : PlacedBefore layout after limit placeOf)
    (heq : ∀ offset < limit, placeOf offset = placeOf' offset) :
    PlacedBefore layout after limit placeOf' := by
  refine ⟨h.pending_eq, ?_⟩
  rw [h.placed_eq, placeAll_congr]
  intro anchor hanchor
  apply heq
  simpa using List.mem_takeWhile_imp hanchor

theorem placeBefore_congr {limit : Nat} {columnOf columnOf' : Nat → Nat}
    (h : ∀ offset < limit, columnOf offset = columnOf' offset) :
    layout.placeBefore limit columnOf = layout.placeBefore limit columnOf' := by
  rw [placeBefore, placeBefore, placeWhile_eq, placeWhile_eq, placeAll_congr]
  intro anchor hanchor
  rw [h]
  simpa using List.mem_takeWhile_imp hanchor

theorem take_placeBefore (columns limit : Nat) (columnOf : Nat → Nat) :
    (layout.take columns).placeBefore limit columnOf
      =
    (layout.placeBefore limit columnOf).take columns := by
  rw [placeBefore, placeBefore, placeWhile_eq, placeWhile_eq]
  rfl

@[simp]
theorem take_zero : layout.take 0 = layout :=
  rfl

theorem take_take (columns columns' : Nat) :
    (layout.take columns).take columns' = layout.take (columns + columns') := by
  rw [take, take, take, Nat.add_assoc]

variable {layout}

namespace Sorted

theorem placeBefore (h : layout.Sorted) (limit : Nat) (columnOf : Nat → Nat) :
    (layout.placeBefore limit columnOf).Sorted := by
  rw [Layout.placeBefore, placeWhile_eq]
  exact h.sublist (List.dropWhile_sublist _)

theorem le_of_mem_dropWhile (h : layout.Sorted) {limit : Nat} {anchor : PendingAnchor}
    (hanchor : anchor ∈ layout.pending.dropWhile (·.offset < limit)) : limit ≤ anchor.offset := by
  have hsorted := h.sublist (List.dropWhile_sublist (·.offset < limit))
  generalize hrest : layout.pending.dropWhile (·.offset < limit) = rest at hanchor hsorted
  cases rest with
  | nil => simp at hanchor
  | cons first rest =>
    have hfirst : ¬ first.offset < limit := by
      have := List.head_dropWhile_not (fun anchor : PendingAnchor => decide (anchor.offset < limit))
        (l := layout.pending) (by simp [hrest])
      simp only [hrest, List.head_cons] at this
      simpa using this
    rw [List.mem_cons] at hanchor
    rcases hanchor with rfl | hanchor
    · omega
    · have := (List.pairwise_cons.mp hsorted).1 anchor hanchor
      omega

theorem placedBefore_trans (h : layout.Sorted) {between after : Layout} {limit limit' : Nat}
    {placeOf placeOf' : Nat → Nat × Nat} (hfirst : PlacedBefore layout between limit placeOf)
    (hsecond : PlacedBefore between after limit' placeOf') (hle : limit ≤ limit') :
    PlacedBefore layout after limit' fun offset =>
      if offset < limit then placeOf offset else placeOf' offset := by
  -- Of two placements in a row, the second one has to do with the offsets from the first limit on.
  have hsteps := takeWhile_append_takeWhile_dropWhile
    (p := fun anchor : PendingAnchor => decide (anchor.offset < limit))
    (q := fun anchor => decide (anchor.offset < limit'))
    (by simp only [decide_eq_true_eq]; omega) layout.pending
  constructor
  · rw [hsecond.pending_eq, hfirst.pending_eq, hsteps.2]
  · rw [hsecond.placed_eq, hfirst.placed_eq, hfirst.pending_eq, placeAll_placeAll _ _ _, hsteps.1]
    · exact fun anchor hanchor => by simpa using List.mem_takeWhile_imp hanchor
    · exact fun anchor hanchor => h.le_of_mem_dropWhile ((List.takeWhile_sublist _).mem hanchor)

theorem placeAll_pending (h : layout.Sorted) {after : Layout} {limit : Nat}
    {placeOf : Nat → Nat × Nat} (hfirst : PlacedBefore layout after limit placeOf)
    (placeOf' : Nat → Nat × Nat) :
    placeAll placeOf' after.placed after.pending
      =
    placeAll (fun offset => if offset < limit then placeOf offset else placeOf' offset)
      layout.placed layout.pending := by
  rw [hfirst.placed_eq, hfirst.pending_eq, placeAll_placeAll _ _ _, List.takeWhile_append_dropWhile]
  · exact fun anchor hanchor => by simpa using List.mem_takeWhile_imp hanchor
  · exact fun anchor => h.le_of_mem_dropWhile

theorem placeBefore_placeBefore (h : layout.Sorted) {limit limit' : Nat} (hle : limit ≤ limit')
    (columnOf columnOf' : Nat → Nat) :
    (layout.placeBefore limit columnOf).placeBefore limit' columnOf'
      =
    layout.placeBefore limit' fun offset =>
      if offset < limit then columnOf offset else columnOf' offset := by
  have hboth := h.placedBefore_trans (layout.placedBefore_placeBefore limit columnOf)
    ((layout.placeBefore limit columnOf).placedBefore_placeBefore limit' columnOf') hle
  have honce := layout.placedBefore_placeBefore limit' fun offset =>
    if offset < limit then columnOf offset else columnOf' offset
  have hplaces : PlacedBefore layout
      ((layout.placeBefore limit columnOf).placeBefore limit' columnOf') limit'
      (fun offset => (layout.entries.size - 1,
        if offset < limit then columnOf offset else columnOf' offset)) := by
    apply hboth.congr
    intro offset _
    rw [entries_placeBefore]
    split
    · rfl
    · rfl
  apply Layout.ext
  · simp
  · simp
  · simp
  · rw [hplaces.pending_eq, honce.pending_eq]
  · rw [hplaces.placed_eq, honce.placed_eq]

end Sorted

end Layout

end Scrollback
