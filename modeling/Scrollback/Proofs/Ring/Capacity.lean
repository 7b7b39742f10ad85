import Scrollback.Proofs.Invariant
import Scrollback.Proofs.Ring.Bounds

/-!
This module contains the proof that no operation makes the window of a ring smaller.
-/

namespace Scrollback

namespace Ring

variable {σ α : Type} {capacity : Nat}

def HasCapacity (capacity : Nat) (ring : Ring σ) : Prop :=
  capacity ≤ ring.window.capacity

namespace HasCapacity

theorem keeps_onArchive (action : EStateM RingError (Archive σ) α) :
    Keeps (HasCapacity capacity) (onArchive action : EStateM RingError (Ring σ) α) := by
  intro ring h
  apply (ends_onArchive_frame action).imp
  · rintro _ _ ⟨archive, rfl⟩
    exact h
  · rintro _ _ ⟨archive, rfl⟩
    exact h

theorem keeps_requireRow (index : Nat) :
    Keeps (HasCapacity capacity) (requireRow index : EStateM RingError (Ring σ) Unit) := by
  apply Keeps.get_bind
  intro ring _
  split
  · exact .pure _
  · exact .throw _

theorem keeps_requireBound (use : IndexUse) (index : Nat) :
    Keeps (HasCapacity capacity) (requireBound use index : EStateM RingError (Ring σ) Unit) := by
  apply Keeps.get_bind
  intro ring _
  split
  · exact .pure _
  · exact .throw _

theorem keeps_ensureRoom :
    Keeps (HasCapacity capacity) (ensureRoom : EStateM RingError (Ring σ) Unit) := by
  intro ring h
  rw [ends_ensureRoom_iff]
  split
  · exact h
  · apply Window.ends_grow_capacity.imp
    · exact fun _ window hwindow => Nat.le_trans h hwindow.2
    · rintro _ _ ⟨-, -, rfl⟩
      exact h

variable [ByteLog σ]

theorem keeps_thawRows (count : Nat) :
    Keeps (HasCapacity capacity) (thawRowsWith ensureRoom count : EStateM RingError (Ring σ) Unit) := by
  induction count with
  | zero => exact .pure _
  | succ count ih =>
    have hthaw : Keeps (HasCapacity capacity) (thawNewestWith ensureRoom : EStateM RingError (Ring σ) Unit) := by
      apply keeps_ensureRoom.bind
      intro _
      apply Keeps.get_bind
      intro ring _
      apply (keeps_onArchive _).bind
      exact fun row => .modify fun ring h => h
    exact hthaw.bind fun _ => ih

theorem keeps_ensureWritable (index : Nat) :
    Keeps (HasCapacity capacity) (ensureWritableWith ensureRoom index : EStateM RingError (Ring σ) Unit) :=
  .get_bind fun _ _ => keeps_thawRows _

theorem keeps_freezeOldest :
    Keeps (HasCapacity capacity) (freezeOldest : EStateM RingError (Ring σ) Unit) := by
  intro ring h
  rw [ends_freezeOldest]
  exact Ends.of_forall (fun _ _ => h) fun _ _ => h

theorem keeps_freezeRows (count : Nat) :
    Keeps (HasCapacity capacity) (freezeRows count : EStateM RingError (Ring σ) Unit) := by
  induction count with
  | zero => exact .pure _
  | succ count ih => exact keeps_freezeOldest.bind fun _ => ih

theorem keeps_dropBefore (index : Nat) :
    Keeps (HasCapacity capacity) (dropBefore index : EStateM RingError (Ring σ) Unit) := by
  have hdrop : Keeps (HasCapacity capacity) (modify fun ring : Ring σ =>
      { ring with start := index }.dropStaleCache : EStateM RingError (Ring σ) PUnit) :=
    .modify fun _ h => h
  apply Keeps.get_bind
  intro ring _
  split
  · apply (keeps_onArchive _).bind
    intro entry
    exact .bind (.modify fun _ h => h) fun _ => hdrop
  · exact .bind (.modify fun _ h => h) fun _ => hdrop

theorem keeps_evict : Keeps (HasCapacity capacity) (evict : EStateM RingError (Ring σ) Unit) := by
  apply Keeps.get_bind
  intro ring _
  split
  · exact keeps_dropBefore _
  · exact .pure _

theorem keeps_settle (keep : Nat) :
    Keeps (HasCapacity capacity) (settleWith ensureRoom keep : EStateM RingError (Ring σ) Unit) := by
  apply Keeps.get_bind
  intro ring _
  dsimp only
  split
  · exact keeps_freezeOldest
  · exact keeps_ensureRoom

theorem keeps_insert (index : Nat) :
    Keeps (HasCapacity capacity) (insert index : EStateM RingError (Ring σ) Nat) := by
  apply (keeps_requireBound _ _).bind
  intro _
  apply keeps_evict.bind
  intro _
  apply Keeps.get_bind
  intro ring _
  apply (keeps_ensureWritable _).bind
  intro _
  apply keeps_ensureRoom.bind
  intro _
  apply Keeps.bind (.modify ?_)
  · exact fun _ => (keeps_settle _).bind fun _ => .pure _
  · intro ring h
    rwa [HasCapacity, Window.capacity_set, Window.capacity_moveUp]

theorem keeps_assign (index : Nat) (row : Row) :
    Keeps (HasCapacity capacity) (assign index row : EStateM RingError (Ring σ) Unit) := by
  apply (keeps_requireRow _).bind
  intro _
  apply (keeps_ensureWritable _).bind
  intro _
  apply Keeps.get_bind
  intro ring h
  exact .bind (.set h) fun _ => .pure _

theorem keeps_row (index : Nat) :
    Keeps (HasCapacity capacity) (Ring.row index : EStateM RingError (Ring σ) Row) := by
  apply (keeps_requireRow _).bind
  intro _
  apply Keeps.get_bind
  intro ring h
  split
  · exact .pure _
  · split
    · exact .pure _
    · refine .bind (.set h) fun _ => ?_
      apply (keeps_onArchive _).bind
      exact fun result => .bind (.modify fun _ h => h) fun _ => .pure _

theorem keeps_isSoftWrapped (index : Nat) :
    Keeps (HasCapacity capacity) (isSoftWrapped index : EStateM RingError (Ring σ) Bool) := by
  apply (keeps_requireRow _).bind
  intro _
  apply Keeps.get_bind
  intro ring _
  split
  · exact .pure _
  · exact (keeps_onArchive _).bind fun entry => .pure _

theorem keeps_erase (index : Nat) :
    Keeps (HasCapacity capacity) (erase index : EStateM RingError (Ring σ) Row) := by
  apply (keeps_requireRow _).bind
  intro _
  apply (keeps_ensureWritable _).bind
  intro _
  apply Keeps.get_bind
  intro ring h
  apply Keeps.bind (.set ?_)
  · exact fun _ => .pure _
  · rwa [HasCapacity, Window.capacity_moveDown, Window.capacity_set]

theorem keeps_resize (maxRows : Nat) :
    Keeps (HasCapacity capacity) (resize maxRows : EStateM RingError (Ring σ) Unit) := by
  refine .bind (.modify fun _ h => h) fun _ => ?_
  apply Keeps.get_bind
  intro ring _
  split
  · exact keeps_dropBefore _
  · exact .pure _

theorem keeps_shrink (rows : Nat) :
    Keeps (HasCapacity capacity) (shrink rows : EStateM RingError (Ring σ) Unit) := by
  apply Keeps.get_bind
  intro ring _
  split
  · dsimp only
    split
    · apply (keeps_onArchive _).bind
      exact fun _ => .bind (.modify fun _ h => h) fun _ => .modify fun _ h => h
    · exact .modify fun _ h => h
  · exact .pure _

theorem keeps_dropScrollback (index : Nat) :
    Keeps (HasCapacity capacity) (dropScrollback index : EStateM RingError (Ring σ) Unit) := by
  apply (keeps_requireBound _ _).bind
  intro _
  apply Keeps.get_bind
  intro ring _
  split
  · exact keeps_dropBefore _
  · exact .pure _

theorem keeps_call (c : Call) :
    Keeps (HasCapacity capacity) (call c : EStateM RingError (Ring σ) Answer) := by
  have hput (index : Nat) (row : Row) :
      Keeps (HasCapacity capacity) (put index row : EStateM RingError (Ring σ) Unit) :=
    .modify fun _ h => h
  cases c with
  | append row =>
    have happend : Keeps (HasCapacity capacity) (append : EStateM RingError (Ring σ) Nat) :=
      .get_bind fun _ _ => keeps_insert _
    exact happend.bind fun index => (hput index row).bind fun _ => .pure _
  | insert index row =>
    exact (keeps_insert index).bind fun index => (hput index row).bind fun _ => .pure _
  | assign index row => exact (keeps_assign index row).bind fun _ => .pure _
  | row index => exact (keeps_row index).bind fun row => .pure _
  | isSoftWrapped index => exact (keeps_isSoftWrapped index).bind fun soft => .pure _
  | erase index => exact (keeps_erase index).bind fun row => .pure _
  | resize maxRows => exact (keeps_resize maxRows).bind fun _ => .pure _
  | shrink rows => exact (keeps_shrink rows).bind fun _ => .pure _
  | dropScrollback index => exact (keeps_dropScrollback index).bind fun _ => .pure _
  | clear => exact .bind (.modify fun _ h => h) fun _ => .pure _
  | setVisibleRows rows => exact .bind (.modify fun _ h => h) fun _ => .pure _

theorem keeps_rewrap (columns : Nat) (markers : List Position) :
    Keeps (HasCapacity capacity)
      (rewrap columns markers : EStateM RingError (Ring σ) (List Position)) := by
  have hanchor (frozen : Ring σ) (marker : Position) :
      Keeps (HasCapacity capacity) (frozen.anchor marker) := by
    unfold anchor
    split
    · exact .pure _
    · exact (keeps_onArchive _).bind fun result => .pure _
  apply Keeps.get_bind
  intro ring _
  split
  · exact .pure _
  · apply Keeps.get_bind
    intro ring _
    apply (keeps_freezeRows _).bind
    intro _
    apply Keeps.get_bind
    intro frozen _
    apply (Keeps.mapM (hanchor frozen) markers).bind
    intro anchors
    apply (keeps_onArchive _).bind
    intro layout
    apply (keeps_onArchive _).bind
    intro log
    exact .bind (.modify fun _ h => h) fun _ => .pure _

variable {κ : Type} [Sink κ]

theorem keeps_writeTo (sink : κ) :
    Keeps (HasCapacity capacity) (writeTo sink : EStateM RingError (Ring σ) κ) := by
  intro ring h
  rw [ends_writeTo]
  apply Ends.of_forall
  · exact fun _ copied => Ends.of_forall (fun _ _ => h) fun _ _ => h
  · exact fun _ copied => h

theorem keeps_operate (operation : Operation κ) :
    Keeps (HasCapacity capacity) (operate operation : EStateM RingError (Ring σ) (Reply κ)) := by
  cases operation with
  | call c => exact (keeps_call c).bind fun answer => .pure _
  | rewrap columns markers => exact (keeps_rewrap columns markers).bind fun positions => .pure _
  | writeContents sink => exact (keeps_writeTo sink).bind fun written => .pure _

theorem after {ring : Ring σ} (h : ring.HasCapacity capacity) (operations : List (Operation κ)) :
    (ring.after operations).HasCapacity capacity := by
  apply List.foldlRecOn
  · exact h
  · exact fun next hnext operation _ => (keeps_operate operation).final hnext

end HasCapacity

end Ring

end Scrollback
