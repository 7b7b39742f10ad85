import Scrollback.Archive.Entry
import Scrollback.Layout.Anchor

/-!
This module contains the layout of frozen text in rows, as it is built up from the first row to the
last.
-/

namespace Scrollback

structure PendingAnchor where
  offset : Nat
  cells : Nat
  marker : Nat
  deriving DecidableEq, Repr

structure Layout where
  columns : Nat
  entries : Array RowEntry := #[]
  column : Nat := 0
  pending : List PendingAnchor
  placed : Array (Option (Nat × Nat))

namespace Layout

def pendingAnchors (anchors : List Anchor) : List PendingAnchor :=
  anchors.zipIdx.filterMap fun
    | (.text offset cells, marker) => some { offset, cells, marker }
    | (.below _ _, _) => none

def ofAnchors (columns : Nat) (anchors : List Anchor) : Layout where
  columns := columns
  pending := (pendingAnchors anchors).mergeSort (fun a b => a.offset ≤ b.offset)
  placed := Array.replicate anchors.length none

def openRow (layout : Layout) (textStart styleStart : Nat) (ascii : Bool) : Layout :=
  { layout with
    entries := layout.entries.push
      { textStart := .ofNat textStart, styleStart := .ofNat styleStart, softWrapped := true, ascii }
    column := 0 }

def closeRow (layout : Layout) (softWrapped : Bool) : Layout :=
  { layout with
    entries := layout.entries.modify (layout.entries.size - 1) fun entry =>
      { entry with softWrapped } }

def place (layout : Layout) (anchor : PendingAnchor) (column : Nat) : Layout :=
  { layout with
    placed := layout.placed.setIfInBounds anchor.marker
      (some (layout.entries.size - 1, add64 column anchor.cells)) }

def placeWhile (layout : Layout) (reached : Nat → Bool) (columnOf : Nat → Nat) : Layout :=
  go layout layout.pending
where
  go (layout : Layout) : List PendingAnchor → Layout
    | [] => { layout with pending := [] }
    | anchor :: pending =>
      if reached anchor.offset then
        go (layout.place anchor (columnOf anchor.offset)) pending
      else
        { layout with pending := anchor :: pending }

def placeBefore (layout : Layout) (limit : Nat) (columnOf : Nat → Nat) : Layout :=
  layout.placeWhile (· < limit) columnOf

def placeAtEnd (layout : Layout) (limit : Nat) : Layout :=
  layout.placeBefore limit fun _ => layout.column

def placeRest (layout : Layout) : Layout :=
  layout.placeWhile (fun _ => true) fun _ => layout.column

def take (layout : Layout) (columns : Nat) : Layout :=
  { layout with column := layout.column + columns }

def overflows (layout : Layout) (width : Nat) : Bool :=
  0 < layout.column && layout.columns < layout.column + width

end Layout

end Scrollback
