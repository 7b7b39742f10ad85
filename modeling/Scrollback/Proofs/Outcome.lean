/-!
This module contains statements about the end of actions that can fail.
-/

namespace Scrollback

variable {ε σ α β : Type}

/--
The action, started in the given state, either succeeds as `ok` says or fails as `err` says.
-/
def Ends (action : EStateM ε σ α) (state : σ) (ok : α → σ → Prop) (err : ε → σ → Prop) : Prop :=
  match action state with
  | .ok a after => ok a after
  | .error e after => err e after

variable {state : σ} {ok ok' : α → σ → Prop} {err err' : ε → σ → Prop}

instance {action : EStateM ε σ α} [∀ a after, Decidable (ok a after)]
    [∀ e after, Decidable (err e after)] : Decidable (Ends action state ok err) :=
  match h : action state with
  | .ok a after => decidable_of_iff (ok a after) (by rw [Ends, h])
  | .error e after => decidable_of_iff (err e after) (by rw [Ends, h])

@[simp]
theorem ends_pure {a : α} : Ends (pure a : EStateM ε σ α) state ok err ↔ ok a state := by
  rfl

@[simp]
theorem ends_throw {e : ε} : Ends (throw e : EStateM ε σ α) state ok err ↔ err e state := by
  rfl

@[simp]
theorem ends_bind {action : EStateM ε σ β} {f : β → EStateM ε σ α} :
    Ends (action >>= f) state ok err
      ↔
    Ends action state (fun b after => Ends (f b) after ok err) err := by
  simp only [Ends, bind, EStateM.bind]
  cases action state <;> rfl

@[simp]
theorem ends_map {action : EStateM ε σ β} {f : β → α} :
    Ends (f <$> action) state ok err ↔ Ends action state (fun b => ok (f b)) err := by
  simp only [Ends, Functor.map, EStateM.map]
  cases action state <;> rfl

@[simp]
theorem ends_discard {ok : PUnit → σ → Prop} {action : EStateM ε σ β} :
    Ends (discard action) state ok err ↔ Ends action state (fun _ => ok ()) err := by
  simp only [Ends, discard, Functor.mapConst, EStateM.map, Function.comp, Function.const]
  cases action state <;> rfl

@[simp]
theorem ends_get {ok : σ → σ → Prop} :
    Ends (get : EStateM ε σ σ) state ok err ↔ ok state state := by
  rfl

@[simp]
theorem ends_set {ok : PUnit → σ → Prop} {after : σ} :
    Ends (set after : EStateM ε σ PUnit) state ok err ↔ ok () after := by
  rfl

@[simp]
theorem ends_modify {ok : PUnit → σ → Prop} {f : σ → σ} :
    Ends (modify f : EStateM ε σ PUnit) state ok err ↔ ok () (f state) := by
  rfl

theorem Ends.imp {action : EStateM ε σ α} (h : Ends action state ok err)
    (hok : ∀ a after, ok a after → ok' a after) (herr : ∀ e after, err e after → err' e after) :
    Ends action state ok' err' := by
  unfold Ends at *
  split at h
  · exact hok _ _ h
  · exact herr _ _ h

theorem Ends.imp_ok {action : EStateM ε σ α} (h : Ends action state ok err)
    (hok : ∀ a after, ok a after → ok' a after) : Ends action state ok' err :=
  h.imp hok fun _ _ herr => herr

theorem Ends.bind {action : EStateM ε σ β} {f : β → EStateM ε σ α} {between : β → σ → Prop}
    (h : Ends action state between err) (hf : ∀ b next, between b next → Ends (f b) next ok err) :
    Ends (action >>= f) state ok err := by
  rw [ends_bind]
  exact h.imp_ok hf

theorem Ends.of_forall {action : EStateM ε σ α} (hok : ∀ a after, ok a after)
    (herr : ∀ e after, err e after) : Ends action state ok err := by
  unfold Ends
  split
  · exact hok _ _
  · exact herr _ _

theorem Ends.with_result {action : EStateM ε σ α} (h : Ends action state ok err) :
    Ends action state (fun a after => ok a after ∧ action state = .ok a after)
      (fun e after => err e after ∧ action state = .error e after) := by
  unfold Ends at *
  split at h
  · next heq => exact ⟨h, heq⟩
  · next heq => exact ⟨h, heq⟩

theorem Ends.and {action : EStateM ε σ α} (h : Ends action state ok err)
    (h' : Ends action state ok' err') :
    Ends action state (fun a after => ok a after ∧ ok' a after)
      (fun e after => err e after ∧ err' e after) := by
  unfold Ends at *
  split at h
  all_goals
    rename_i heq
    rw [heq] at h'
    exact ⟨h, h'⟩

theorem Ends.mapM {action : α → EStateM ε σ β} {f : α → β} {p : σ → Prop}
    (h : ∀ a state, p state →
      Ends (action a) state (fun b after => b = f a ∧ p after) err)
    (l : List α) (hstate : p state) :
    Ends (l.mapM action) state (fun bs after => bs = l.map f ∧ p after) err := by
  induction l generalizing state with
  | nil =>
    rw [List.mapM_nil, ends_pure]
    exact ⟨rfl, hstate⟩
  | cons a l ih =>
    rw [List.mapM_cons]
    apply (h a state hstate).bind
    rintro _ next ⟨rfl, hnext⟩
    apply (ih hnext).bind
    rintro _ after ⟨rfl, hafter⟩
    exact ⟨rfl, hafter⟩

theorem Ends.mapM_invariant {action : α → EStateM ε σ β} {p : σ → Prop}
    (h : ∀ a state, p state → Ends (action a) state (fun _ => p) (fun _ => p)) (l : List α)
    (hstate : p state) : Ends (l.mapM action) state (fun _ => p) (fun _ => p) := by
  induction l generalizing state with
  | nil => exact hstate
  | cons a l ih =>
    rw [List.mapM_cons]
    apply (h a state hstate).bind
    intro _ next hnext
    exact (ih hnext).bind fun _ _ hafter => hafter

def final (action : EStateM ε σ α) (state : σ) : σ :=
  match action state with
  | .ok _ after => after
  | .error _ after => after

theorem final_eq_of_ok {action : EStateM ε σ α} {a : α} {after : σ} (h : action state = .ok a after) :
    final action state = after := by
  rw [final, h]

def outcome (action : EStateM ε σ α) (state : σ) : Except ε α :=
  match action state with
  | .ok a _ => .ok a
  | .error e _ => .error e

theorem eq_error_of_outcome {action : EStateM ε σ α} {e : ε} (h : outcome action state = .error e) :
    action state = .error e (final action state) := by
  unfold outcome at h
  unfold final
  cases heq : action state with
  | ok a after =>
    rw [heq] at h
    contradiction
  | error e' after =>
    rw [heq, Except.error.injEq] at h
    rw [h]

theorem Ends.outcome_final {action : EStateM ε σ α} {p : Except ε α → σ → Prop}
    (h : Ends action state (fun a => p (.ok a)) (fun e => p (.error e))) :
    p (outcome action state) (final action state) := by
  unfold Ends at h
  unfold outcome final
  cases heq : action state with
  | ok a after => rwa [heq] at h
  | error e after => rwa [heq] at h

theorem outcome_bind (action : EStateM ε σ β) (f : β → EStateM ε σ α) (state : σ) :
    outcome (action >>= f) state
      =
    (outcome action state).bind fun b => outcome (f b) (final action state) := by
  unfold outcome final
  simp only [bind, EStateM.bind]
  cases action state <;> rfl

theorem outcome_get_bind (f : σ → EStateM ε σ α) (state : σ) :
    outcome (get >>= f) state = outcome (f state) state := by
  rfl

theorem final_bind (action : EStateM ε σ β) (f : β → EStateM ε σ α) (state : σ) :
    final (action >>= f) state
      =
    match outcome action state with
    | .ok b => final (f b) (final action state)
    | .error _ => final action state := by
  unfold outcome final
  simp only [bind, EStateM.bind]
  cases action state <;> rfl

theorem outcome_map (f : α → β) (action : EStateM ε σ α) (state : σ) :
    outcome (f <$> action) state = (outcome action state).map f := by
  unfold outcome
  simp only [Functor.map, EStateM.map]
  cases action state <;> rfl

theorem Ends.outcome_final_of_ok {action : EStateM ε σ α} (h : Ends action state ok err)
    (herr : ∀ e after, ¬ err e after) :
    ∃ a, outcome action state = .ok a ∧ ok a (final action state) := by
  unfold Ends at h
  unfold outcome final
  cases heq : action state with
  | ok a after =>
    rw [heq] at h
    exact ⟨a, rfl, h⟩
  | error e after =>
    rw [heq] at h
    exact absurd h (herr e after)

theorem bind_congr_of_ends {p : β → Prop} {action : EStateM ε σ β} {f g : β → EStateM ε σ α}
    (h : ∀ state, Ends action state (fun b _ => p b) fun _ _ => True)
    (heq : ∀ b, p b → f b = g b) : action >>= f = action >>= g := by
  funext state
  have h := h state
  unfold Ends at h
  simp only [bind, EStateM.bind]
  split at h
  · next b after haction =>
    rw [haction]
    exact congrFun (heq b h) after
  · next e after haction =>
    rw [haction]

theorem final_bind_pure (action : EStateM ε σ β) (f : β → α) (state : σ) :
    final (do return f (← action)) state = final action state := by
  unfold Scrollback.final
  simp only [bind, EStateM.bind, pure, EStateM.pure]
  cases action state <;> rfl

theorem Ends.final {action : EStateM ε σ α} {p : σ → Prop}
    (h : Ends action state (fun _ => p) (fun _ => p)) : p (final action state) :=
  h.outcome_final (p := fun _ => p)

theorem Ends.of_ok {action : EStateM ε σ α} {a : α} {after : σ} (h : Ends action state ok err)
    (heq : action state = .ok a after) : ok a after := by
  rw [Ends, heq] at h
  exact h

theorem Ends.of_error {action : EStateM ε σ α} {e : ε} {after : σ} (h : Ends action state ok err)
    (heq : action state = .error e after) : err e after := by
  rw [Ends, heq] at h
  exact h

theorem Ends.exists_or_exists {action : EStateM ε σ α} (h : Ends action state ok err) :
    (∃ a after, action state = .ok a after ∧ ok a after)
      ∨ (∃ e after, action state = .error e after ∧ err e after) := by
  unfold Ends at h
  split at h
  · next a after heq => exact Or.inl ⟨a, after, heq, h⟩
  · next e after heq => exact Or.inr ⟨e, after, heq, h⟩

theorem run'_of_ok {action : EStateM ε σ α} {a : α} {after : σ} (h : action state = .ok a after) :
    action.run' state = some a :=
  congrArg (fun result => match result with | .ok a _ => some a | .error _ _ => none) h

theorem run'_of_error {action : EStateM ε σ α} {e : ε} {after : σ}
    (h : action state = .error e after) : action.run' state = none :=
  congrArg (fun result => match result with | .ok a _ => some a | .error _ _ => none) h

theorem eq_ok_of_run' {action : EStateM ε σ α} {a : α} (h : action.run' state = some a) :
    action state = .ok a (final action state) := by
  cases heq : action state with
  | ok b after =>
    rw [run'_of_ok heq, Option.some.injEq] at h
    rw [final_eq_of_ok heq, h]
  | error e after =>
    rw [run'_of_error heq] at h
    contradiction

theorem Ends.run'_eq {action : EStateM ε σ α} {a : α} (h : Ends action state (fun b _ => b = a) err)
    (herr : ∀ e after, ¬ err e after) : action.run' state = some a := by
  unfold Ends at h
  split at h
  · next heq =>
    rw [run'_of_ok heq, h]
  · next e after heq =>
    exact absurd h (herr e after)

theorem Ends.of_run' {action : EStateM ε σ α} {a : α} (h : Ends action state ok err)
    (hrun : action.run' state = some a) : ∃ after, ok a after := by
  cases heq : action state with
  | ok b after =>
    rw [run'_of_ok heq, Option.some.injEq] at hrun
    exact ⟨after, h.of_ok (hrun ▸ heq)⟩
  | error e after =>
    rw [run'_of_error heq] at hrun
    contradiction

theorem Ends.exists_ok {action : EStateM ε σ α} (h : Ends action state ok err)
    (herr : ∀ e after, ¬ err e after) :
    ∃ a after, action state = .ok a after ∧ ok a after := by
  rcases h.exists_or_exists with hok | ⟨e, after, -, h⟩
  · exact hok
  · exact absurd h (herr e after)

end Scrollback
