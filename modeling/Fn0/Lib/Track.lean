/-
What a fallible stateful computation does to its state, whatever its outcome: a relation between the state
before and the state after that holds for a result and for an error alike. With a reflexive and transitive
relation the rules follow the program.
-/
import Mathlib
import Fn0.Lib.Eff

namespace Eff

variable {ε σ α β : Type}

/-- Whatever the outcome, the state after is related to the state before. -/
def Tracks (R : σ → σ → Prop) (x : Eff ε σ α) : Prop := ∀ s, R s (x.exec s).2

variable {R : σ → σ → Prop}

theorem Tracks.sat {x : Eff ε σ α} (h : Tracks R x) (s : σ) : Sat x s (fun _ t => R s t) (fun _ t => R s t) := by
  have hs := h s
  unfold Sat
  rcases hx : x.exec s with ⟨e | a, t⟩ <;> rw [hx] at hs <;> exact hs

/-- A postcondition for both outcomes is one of the state left. -/
theorem tracks_outcome {x : Eff ε σ α} {s : σ} {P : σ → Prop} (h : Sat x s (fun _ t => P t) (fun _ t => P t)) :
    P (x.exec s).2 := by
  unfold Sat at h
  rcases hx : x.exec s with ⟨e | a, t⟩ <;> rw [hx] at h <;> exact h

theorem tracks_pure [Std.Refl R] (a : α) : Tracks R (pure a : Eff ε σ α) := fun s => Std.Refl.refl s

theorem tracks_throw [Std.Refl R] (e : ε) : Tracks R (throw e : Eff ε σ α) := fun s => Std.Refl.refl s

theorem tracks_get [Std.Refl R] : Tracks R (get : Eff ε σ σ) := fun s => Std.Refl.refl s

theorem tracks_modify {f : σ → σ} (h : ∀ s, R s (f s)) : Tracks R (modify f : Eff ε σ PUnit) := h

theorem Tracks.bind [IsTrans σ R] {x : Eff ε σ α} {f : α → Eff ε σ β} (hx : Tracks R x)
    (hf : ∀ a, Tracks R (f a)) : Tracks R (x >>= f) := by
  intro s
  rw [exec_bind]
  have hs := hx s
  rcases hex : x.exec s with ⟨e | a, t⟩ <;> rw [hex] at hs
  · exact hs
  · exact IsTrans.trans _ _ _ hs (hf a t)

/-- Reading the state first: the rest need only be tracked from the state that was read. -/
theorem tracks_get_bind {f : σ → Eff ε σ β} (h : ∀ s, R s ((f s).exec s).2) : Tracks R (get >>= f) := by
  intro s
  rw [exec_bind_ok (exec_get s)]
  exact h s

theorem tracks_forM [Std.Refl R] [IsTrans σ R] {f : α → Eff ε σ PUnit} (h : ∀ a, Tracks R (f a)) (xs : List α) :
    Tracks R (xs.forM f) := by
  induction xs with
  | nil => exact tracks_pure _
  | cons x xs ih => exact (h x).bind fun _ => ih

/-! ## Properties kept -/

/-- The computation keeps a property of the state, whatever its outcome. -/
def Keeps (I : σ → Prop) (x : Eff ε σ α) : Prop := ∀ s, I s → Sat x s (fun _ t => I t) (fun _ t => I t)

variable {I : σ → Prop}

theorem keeps_pure (a : α) : Keeps I (pure a : Eff ε σ α) := fun _ h => h

theorem keeps_modify {f : σ → σ} (h : ∀ s, I s → I (f s)) : Keeps I (modify f : Eff ε σ PUnit) := h

theorem Keeps.bind {x : Eff ε σ α} {f : α → Eff ε σ β} (hx : Keeps I x) (hf : ∀ a, Keeps I (f a)) : Keeps I (x >>= f) :=
  fun s hs => (hx s hs).bind (fun a t ht => hf a t ht) (fun _ _ ht => ht)

/-- Reading the state first: the rest keeps the property from the state that was read. -/
theorem keeps_get_bind {f : σ → Eff ε σ β} (h : ∀ s, I s → Sat (f s) s (fun _ t => I t) (fun _ t => I t)) :
    Keeps I (get >>= f) :=
  fun s hs => sat_bind.mpr (sat_get.mpr (h s hs))

end Eff
