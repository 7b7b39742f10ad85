import Scrollback.Proofs.Ring.Call
import Scrollback.Ring.Rewrap
import Scrollback.Ring.Contents

/-!
This module contains the operations of a ring, those that rewrap it and export its text included.
-/

namespace Scrollback

inductive Operation (κ : Type) where
  | call (c : Call)
  | rewrap (columns : Nat) (markers : List Position)
  | writeContents (sink : κ)
  deriving DecidableEq

def Operation.Writes {κ : Type} (p : Row → Prop) : Operation κ → Prop
  | .call c => c.Writes p
  | .rewrap _ _ | .writeContents _ => True

instance {κ : Type} (p : Row → Prop) [DecidablePred p] :
    (operation : Operation κ) → Decidable (operation.Writes p)
  | .call c => inferInstanceAs (Decidable (c.Writes p))
  | .rewrap _ _ | .writeContents _ => isTrue trivial

theorem Operation.Writes.imp {κ : Type} {p q : Row → Prop} (h : ∀ row, p row → q row)
    {operation : Operation κ} (hwrites : operation.Writes p) : operation.Writes q := by
  cases operation with
  | call c => exact Call.Writes.imp h hwrites
  | _ => trivial

inductive Reply (κ : Type) where
  | answer (answer : Answer)
  | positions (positions : List Position)
  | written (sink : κ)
  deriving DecidableEq

namespace Ring

variable {σ κ : Type} [ByteLog σ] [Sink κ]

def writeTo (sink : κ) : EStateM RingError (Ring σ) κ := fun ring =>
  match writeContents (ring, sink) with
  | .ok () (ring, sink) => .ok sink ring
  | .error e (ring, _) => .error e ring

def operateWith (room : EStateM RingError (Ring σ) Unit) :
    Operation κ → EStateM RingError (Ring σ) (Reply κ)
  | .call c => return .answer (← callWith room c)
  | .rewrap columns markers => return .positions (← rewrap columns markers)
  | .writeContents sink => return .written (← writeTo sink)

def operate (operation : Operation κ) : EStateM RingError (Ring σ) (Reply κ) :=
  operateWith ensureRoom operation

def after (ring : Ring σ) (operations : List (Operation κ)) : Ring σ :=
  operations.foldl (fun ring operation => final (operate operation) ring) ring

theorem ends_writeContents {ring : Ring σ} {sink : κ} {ok : Unit → Ring σ × κ → Prop}
    {err : RingError → Ring σ × κ → Prop} :
    Ends writeContents (ring, sink) ok err
      ↔
    Ends Archive.copyText (ring.archive, sink)
      (fun _ copied =>
        Ends (writeLines ring.windowRows) copied.2
          (fun _ after => ok () ({ ring with archive := copied.1 }, after))
          (fun message after => err (.sink message) ({ ring with archive := copied.1 }, after)))
      (fun e copied => err e ({ ring with archive := copied.1 }, copied.2)) := by
  have hrows (archive : Archive σ) : ({ ring with archive } : Ring σ).windowRows = ring.windowRows :=
    rfl
  unfold Ends writeContents
  dsimp only
  rcases Archive.copyText (ring.archive, sink) with ⟨⟨⟩, archive, copied⟩ | ⟨e, archive, copied⟩
  · dsimp only
    rw [hrows archive]
    cases writeLines ring.windowRows copied <;> rfl
  · rfl

theorem ends_writeTo {ring : Ring σ} {sink : κ} {ok : κ → Ring σ → Prop}
    {err : RingError → Ring σ → Prop} :
    Ends (writeTo sink) ring ok err
      ↔
    Ends Archive.copyText (ring.archive, sink)
      (fun _ copied =>
        Ends (writeLines ring.windowRows) copied.2
          (fun _ sink => ok sink { ring with archive := copied.1 })
          (fun message _ => err (.sink message) { ring with archive := copied.1 }))
      (fun e copied => err e { ring with archive := copied.1 }) := by
  have hwriteTo : Ends (writeTo sink) ring ok err
      ↔
    Ends writeContents (ring, sink) (fun _ after => ok after.2 after.1)
      (fun e after => err e after.1) := by
    simp only [Ends, writeTo]
    rcases writeContents (ring, sink) with ⟨⟨⟩, after, written⟩ | ⟨e, after, written⟩ <;> rfl
  exact hwriteTo.trans ends_writeContents

end Ring

end Scrollback
