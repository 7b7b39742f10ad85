import Scrollback.Proofs.Outcome

/-!
This module contains properties of states that actions keep, whether they succeed or fail.
-/

namespace Scrollback

variable {ε σ α β : Type}

def Keeps (p : σ → Prop) (action : EStateM ε σ α) : Prop :=
  ∀ state, p state → Ends action state (fun _ => p) (fun _ => p)

namespace Keeps

variable {p : σ → Prop}

theorem pure (a : α) : Keeps p (pure a : EStateM ε σ α) :=
  fun _ h => h

theorem throw (e : ε) : Keeps p (throw e : EStateM ε σ α) :=
  fun _ h => h

theorem bind {action : EStateM ε σ β} {f : β → EStateM ε σ α} (haction : Keeps p action)
    (hf : ∀ b, Keeps p (f b)) : Keeps p (action >>= f) := by
  intro state h
  exact (haction state h).bind fun b after hafter => hf b after hafter

theorem get_bind {f : σ → EStateM ε σ α} (hf : ∀ state, p state → Keeps p (f state)) :
    Keeps p (get >>= f) := by
  intro state h
  rw [ends_bind, ends_get]
  exact hf state h state h

theorem set {after : σ} (h : p after) : Keeps p (set after : EStateM ε σ PUnit) :=
  fun _ _ => h

theorem modify {f : σ → σ} (hf : ∀ state, p state → p (f state)) :
    Keeps p (modify f : EStateM ε σ PUnit) :=
  fun state h => hf state h

theorem mapM {action : α → EStateM ε σ β} (h : ∀ a, Keeps p (action a)) (l : List α) :
    Keeps p (l.mapM action) :=
  fun _ hstate => Ends.mapM_invariant (fun a => h a) l hstate

theorem final {action : EStateM ε σ α} (h : Keeps p action) {state : σ} (hstate : p state) :
    p (final action state) :=
  (h state hstate).final

end Keeps

end Scrollback
