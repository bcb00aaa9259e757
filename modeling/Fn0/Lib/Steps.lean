/-
Systems that take one action at a time, where a state may refuse an action.
-/
import Mathlib

namespace Steps

variable {σ α : Type} {step : σ → α → Option σ} {ok : σ → α → Prop} {start s t : σ}

/-- What is reached from a state by actions that all meet a condition on the state they are taken in. -/
inductive Reach (step : σ → α → Option σ) (ok : σ → α → Prop) (start : σ) : σ → Prop
  | start : Reach step ok start start
  | step {s t : σ} (action : α) : Reach step ok start s → ok s action → step s action = some t →
      Reach step ok start t

/-- **Invariants.** What holds at the start and is kept by each action holds of everything reached. -/
theorem Reach.invariant {P : σ → Prop} (h : Reach step ok start s) (hstart : P start)
    (hstep : ∀ s action t, P s → ok s action → step s action = some t → P t) : P s := by
  induction h with
  | start => exact hstart
  | step action _ hok htaken ih => exact hstep _ action _ ih hok htaken

theorem Reach.mono {ok' : σ → α → Prop} (h : Reach step ok start s) (himp : ∀ s action, ok s action → ok' s action) :
    Reach step ok' start s := by
  induction h with
  | start => exact .start
  | step action _ hok htaken ih => exact ih.step action (himp _ _ hok) htaken

/-- A list of actions, each checked before it is taken. -/
def along (step : σ → α → Option σ) (ok : σ → α → Prop) [∀ s action, Decidable (ok s action)] :
    List α → σ → Option σ
  | [], s => some s
  | action :: actions, s => if ok s action then (step s action).bind (along step ok actions) else none

theorem Reach.along [∀ s action, Decidable (ok s action)] {actions : List α} (h : Reach step ok start s)
    (hrun : Steps.along step ok actions s = some t) : Reach step ok start t := by
  induction actions generalizing s with
  | nil => cases hrun; exact h
  | cons action actions ih =>
    rw [Steps.along] at hrun
    split at hrun
    next hok =>
      obtain ⟨u, htaken, hrest⟩ := Option.bind_eq_some_iff.mp hrun
      exact ih (h.step action hok htaken) hrest
    next => cases hrun

theorem exists_of_any {β : Type} {o : Option β} {p : β → Bool} (h : o.any p = true) : ∃ b, o = some b ∧ p b = true := by
  cases o with
  | none => cases h
  | some b => exact ⟨b, rfl, h⟩

/-- A list of actions that ends in a state with a property that can be tested. -/
theorem exists_reach [∀ s action, Decidable (ok s action)] (actions : List α) {p : σ → Bool}
    (h : (Steps.along step ok actions start).any p = true) : ∃ s, Reach step ok start s ∧ p s = true := by
  obtain ⟨s, hs, hp⟩ := exists_of_any h
  exact ⟨s, Reach.start.along hs, hp⟩

end Steps
