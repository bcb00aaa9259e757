/-
Fallible stateful computations that keep their state when they fail, with the rules for reasoning
about them: pre- and postconditions over a computation (`Sat`).

A method `fn f(&mut self) -> Result<A, E>` is a computation `Eff E S A`: the caller who receives an
error still holds the object, with whatever the method had already written into it.
-/
import Mathlib

theorem Except.bind_eq_ok {ε α β : Type} {x : Except ε α} {f : α → Except ε β} {b : β} :
    (x >>= f) = .ok b ↔ ∃ a, x = .ok a ∧ f a = .ok b := by
  cases x with
  | error e => simp [bind, Except.bind]
  | ok a => simp [bind, Except.bind]

theorem Except.forM_eq_ok {ε α : Type} {f : α → Except ε PUnit} {xs : List α} :
    xs.forM f = .ok () ↔ ∀ x ∈ xs, f x = .ok () := by
  induction xs with
  | nil => simp [pure, Except.pure]
  | cons x xs ih =>
    change (f x >>= fun _ => xs.forM f) = .ok () ↔ _
    rw [Except.bind_eq_ok, List.forall_mem_cons, ← ih]
    exact ⟨fun ⟨_, h⟩ => h, fun h => ⟨(), h⟩⟩

/-- A computation over a state `σ` that returns a value or an error, and a state in both cases. -/
abbrev Eff (ε σ α : Type) : Type := ExceptT ε (StateM σ) α

namespace Eff

variable {ε σ α β : Type}

/-- The outcome of a computation from a state: the result and the state it leaves. -/
def exec (x : Eff ε σ α) (s : σ) : Except ε α × σ := (ExceptT.run x).run s

/-- A pure fallible computation, lifted. -/
def ofExcept (r : Except ε α) : Eff ε σ α := ExceptT.mk (fun s => (r, s))

@[simp] theorem exec_pure (a : α) (s : σ) : (pure a : Eff ε σ α).exec s = (.ok a, s) := rfl

@[simp] theorem exec_throw (e : ε) (s : σ) : (throw e : Eff ε σ α).exec s = (.error e, s) := rfl

@[simp] theorem exec_get (s : σ) : (get : Eff ε σ σ).exec s = (.ok s, s) := rfl

@[simp] theorem exec_set (s t : σ) : (set t : Eff ε σ PUnit).exec s = (.ok ⟨⟩, t) := rfl

@[simp] theorem exec_modify (f : σ → σ) (s : σ) :
    (modify f : Eff ε σ PUnit).exec s = (.ok ⟨⟩, f s) := rfl

@[simp] theorem exec_ofExcept (r : Except ε α) (s : σ) : (ofExcept r : Eff ε σ α).exec s = (r, s) := rfl

theorem exec_bind (x : Eff ε σ α) (f : α → Eff ε σ β) (s : σ) :
    (x >>= f).exec s = match x.exec s with
      | (.ok a, s') => (f a).exec s'
      | (.error e, s') => (.error e, s') := by
  unfold exec ExceptT.run StateT.run
  simp only [bind, ExceptT.bind, ExceptT.mk, StateT.bind, ExceptT.bindCont]
  rcases x s with ⟨_ | _, _⟩ <;> rfl

theorem exec_bind_ok {x : Eff ε σ α} {f : α → Eff ε σ β} {s s' : σ} {a : α}
    (h : x.exec s = (.ok a, s')) : (x >>= f).exec s = (f a).exec s' := by
  rw [exec_bind, h]

theorem exec_bind_error {x : Eff ε σ α} {f : α → Eff ε σ β} {s s' : σ} {e : ε}
    (h : x.exec s = (.error e, s')) : (x >>= f).exec s = (.error e, s') := by
  rw [exec_bind, h]

theorem exec_ofExcept_bind (r : Except ε α) (f : α → Eff ε σ β) (s : σ) :
    (ofExcept r >>= f).exec s = match r with
      | .ok a => (f a).exec s
      | .error e => (.error e, s) := by
  rw [exec_bind, exec_ofExcept]
  cases r <;> rfl

/-! ## Pre- and postconditions -/

/-- Started in `s`, the computation either returns a value and a state in `Q`, or fails with an error
and a state in `E`. -/
def Sat (x : Eff ε σ α) (s : σ) (Q : α → σ → Prop) (E : ε → σ → Prop) : Prop :=
  match x.exec s with
  | (.ok a, s') => Q a s'
  | (.error e, s') => E e s'

variable {Q Q' : α → σ → Prop} {E E' : ε → σ → Prop} {s s' : σ}

@[simp] theorem sat_pure {a : α} : Sat (pure a : Eff ε σ α) s Q E ↔ Q a s := Iff.rfl

@[simp] theorem sat_throw {e : ε} : Sat (throw e : Eff ε σ α) s Q E ↔ E e s := Iff.rfl

@[simp] theorem sat_get {Q : σ → σ → Prop} : Sat (get : Eff ε σ σ) s Q E ↔ Q s s := Iff.rfl

@[simp] theorem sat_set {t : σ} {Q : PUnit → σ → Prop} :
    Sat (set t : Eff ε σ PUnit) s Q E ↔ Q ⟨⟩ t := Iff.rfl

@[simp] theorem sat_modify {f : σ → σ} {Q : PUnit → σ → Prop} :
    Sat (modify f : Eff ε σ PUnit) s Q E ↔ Q ⟨⟩ (f s) := Iff.rfl

@[simp] theorem sat_bind {x : Eff ε σ β} {f : β → Eff ε σ α} :
    Sat (x >>= f) s Q E ↔ Sat x s (fun b s' => Sat (f b) s' Q E) E := by
  unfold Sat
  rw [exec_bind]
  rcases x.exec s with ⟨_ | _, _⟩ <;> rfl

theorem Sat.mono {x : Eff ε σ α} (h : Sat x s Q E) (hQ : ∀ a t, Q a t → Q' a t)
    (hE : ∀ e t, E e t → E' e t) : Sat x s Q' E' := by
  unfold Sat at h ⊢
  rcases hx : x.exec s with ⟨e | a, t⟩ <;> rw [hx] at h
  · exact hE e t h
  · exact hQ a t h

theorem Sat.bind {x : Eff ε σ β} {f : β → Eff ε σ α} {R : β → σ → Prop} {E₀ : ε → σ → Prop}
    (hx : Sat x s R E₀) (hf : ∀ b t, R b t → Sat (f b) t Q E) (hE : ∀ e t, E₀ e t → E e t) :
    Sat (x >>= f) s Q E :=
  sat_bind.mpr (hx.mono hf hE)

theorem sat_of_exec_ok {x : Eff ε σ α} {a : α} (h : x.exec s = (.ok a, s')) (hq : Q a s') :
    Sat x s Q E := by
  unfold Sat; rw [h]; exact hq

theorem Sat.of_ok {x : Eff ε σ α} {a : α} (h : Sat x s Q E) (hx : x.exec s = (.ok a, s')) : Q a s' := by
  unfold Sat at h; rw [hx] at h; exact h

theorem Sat.of_error {x : Eff ε σ α} {e : ε} (h : Sat x s Q E) (hx : x.exec s = (.error e, s')) :
    E e s' := by
  unfold Sat at h; rw [hx] at h; exact h

/-- A computation that cannot fail from `s` returns. -/
theorem Sat.exists_ok {x : Eff ε σ α} (h : Sat x s Q (fun _ _ => False)) :
    ∃ a s', x.exec s = (.ok a, s') ∧ Q a s' := by
  unfold Sat at h
  rcases hx : x.exec s with ⟨e | a, t⟩ <;> rw [hx] at h
  · exact h.elim
  · exact ⟨a, t, rfl, h⟩

end Eff
