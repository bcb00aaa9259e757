/-
Programs as trees of calls.

A program makes one call at a time to what it shares with others and goes on with the answer. Between two of its calls
the others may act. What a program does then is stated against a protocol: an invariant of the shared state and a
relation to later states, which every party keeps at each of its calls and may rely on between its own.
-/
import Mathlib

/-- A program that returns a value or an error after calls, each with its own type of answers. -/
inductive Calls (Op : Type) (Answer : Op → Type) (ε α : Type)
  | done (a : α)
  | fail (e : ε)
  | call (op : Op) (next : Answer op → Calls Op Answer ε α)

namespace Calls

variable {Op : Type} {Answer : Op → Type} {ε ε' α β σ : Type}

protected def bind : Calls Op Answer ε α → (α → Calls Op Answer ε β) → Calls Op Answer ε β
  | done a, f => f a
  | fail e, _ => fail e
  | call op next, f => call op fun r => (next r).bind f

instance : Monad (Calls Op Answer ε) where
  pure := done
  bind := Calls.bind

def perform (op : Op) : Calls Op Answer ε (Answer op) := call op done

/-- The outcome as a value: an error of the program is not an error of the attempt. -/
def attempt : Calls Op Answer ε α → Calls Op Answer ε' (Except ε α)
  | done a => done (.ok a)
  | fail e => done (.error e)
  | call op next => call op fun r => (next r).attempt

def ofExcept : Except ε α → Calls Op Answer ε α
  | .ok a => done a
  | .error e => fail e

instance : MonadExceptOf ε (Calls Op Answer ε) where
  throw := fail
  tryCatch x handler := do
    match ← (x.attempt : Calls Op Answer ε (Except ε _)) with
    | .ok a => pure a
    | .error e => handler e

/-! ## Runs -/

/-- What a program can return, and the state it can leave, when nobody else acts. -/
def Ends (answers : (op : Op) → σ → Answer op → σ → Prop) : Calls Op Answer ε α → σ → Except ε α → σ → Prop
  | done a, s, r, t => r = .ok a ∧ t = s
  | fail e, s, r, t => r = .error e ∧ t = s
  | call op next, s, r, t => ∃ answer u, answers op s answer u ∧ Ends answers (next answer) u r t

/-- The run of a program whose calls have one answer each. -/
def run (answer : (op : Op) → σ → Answer op × σ) : Calls Op Answer ε α → σ → Except ε α × σ
  | done a, s => (.ok a, s)
  | fail e, s => (.error e, s)
  | call op next, s => run answer (next (answer op s).1) (answer op s).2

section Run

variable {answer : (op : Op) → σ → Answer op × σ} {x : Calls Op Answer ε α} {f : α → Calls Op Answer ε β} {s t : σ}

end Run

end Calls

/-- What all parties keep: an invariant of the shared state, and how a state may relate to an earlier one. -/
structure Protocol (σ : Type) where
  inv : σ → Prop
  later : σ → σ → Prop
  refl : ∀ s, later s s
  trans : ∀ {s t u}, later s t → later t u → later s u

namespace Calls

variable {Op : Type} {Answer : Op → Type} {ε ε' α β σ : Type}

section Keeps

variable (P : Protocol σ) (answers : (op : Op) → σ → Answer op → σ → Prop)

/--
Each call of the program keeps the protocol, whatever others that keep it do in between, and what the program returns
meets `Q` in every state after its end.
-/
def Keeps : Calls Op Answer ε α → (Except ε α → σ → Prop) → σ → Prop
  | done a, Q, s => ∀ t, P.later s t → P.inv t → Q (.ok a) t
  | fail e, Q, s => ∀ t, P.later s t → P.inv t → Q (.error e) t
  | call op next, Q, s => ∀ t, P.later s t → P.inv t → ∀ answer u, answers op t answer u →
      P.inv u ∧ P.later t u ∧ Keeps (next answer) Q u

end Keeps

variable {P : Protocol σ} {answers : (op : Op) → σ → Answer op → σ → Prop}
variable {x : Calls Op Answer ε α} {f : α → Calls Op Answer ε β} {Q : Except ε α → σ → Prop} {s t : σ}

theorem Keeps.later (h : Keeps P answers x Q s) (hst : P.later s t) : Keeps P answers x Q t := by
  cases x with
  | done a => exact fun u hu => h u (P.trans hst hu)
  | fail e => exact fun u hu => h u (P.trans hst hu)
  | call op next => exact fun u hu => h u (P.trans hst hu)

/-- A program is only looked at in later states that meet the invariant. -/
theorem keeps_of_later (h : ∀ t, P.later s t → P.inv t → Keeps P answers x Q t) : Keeps P answers x Q s := by
  cases x with
  | done a => exact fun t ht hi => h t ht hi t (P.refl t) hi
  | fail e => exact fun t ht hi => h t ht hi t (P.refl t) hi
  | call op next => exact fun t ht hi => h t ht hi t (P.refl t) hi

theorem keeps_pure {a : α} (h : ∀ t, P.later s t → P.inv t → Q (.ok a) t) :
    Keeps P answers (pure a : Calls Op Answer ε α) Q s := h

theorem keeps_throw {e : ε} (h : ∀ t, P.later s t → P.inv t → Q (.error e) t) :
    Keeps P answers (throw e : Calls Op Answer ε α) Q s := h

/-- A program and what goes on with its value. -/
theorem Keeps.bind {T : Except ε β → σ → Prop} (hx : Keeps P answers x Q s)
    (hf : ∀ a t, P.later s t → P.inv t → Q (.ok a) t → Keeps P answers (f a) T t)
    (he : ∀ e t, P.later s t → P.inv t → Q (.error e) t → T (.error e) t) : Keeps P answers (x >>= f) T s := by
  induction x generalizing s with
  | done a => exact keeps_of_later fun t ht hi => hf a t ht hi (hx t ht hi)
  | fail e => exact fun t ht hi => he e t ht hi (hx t ht hi)
  | call op next ih =>
    intro t ht hi answer u hu
    obtain ⟨hinv, hlater, hnext⟩ := hx t ht hi answer u hu
    have hsu := P.trans ht hlater
    exact ⟨hinv, hlater, ih answer hnext (fun a v hv => hf a v (P.trans hsu hv)) fun e v hv => he e v (P.trans hsu hv)⟩

theorem Keeps.mono {T : Except ε α → σ → Prop} (hx : Keeps P answers x Q s)
    (h : ∀ r t, P.later s t → P.inv t → Q r t → T r t) : Keeps P answers x T s := by
  induction x generalizing s with
  | done a => exact fun t ht hi => h _ t ht hi (hx t ht hi)
  | fail e => exact fun t ht hi => h _ t ht hi (hx t ht hi)
  | call op next ih =>
    intro t ht hi answer u hu
    obtain ⟨hinv, hlater, hnext⟩ := hx t ht hi answer u hu
    exact ⟨hinv, hlater, ih answer hnext fun r v hv => h r v (P.trans (P.trans ht hlater) hv)⟩

theorem Keeps.attempt {T : Except ε' (Except ε α) → σ → Prop} (hx : Keeps P answers x Q s)
    (h : ∀ r t, P.later s t → P.inv t → Q r t → T (.ok r) t) :
    Keeps P answers (x.attempt : Calls Op Answer ε' (Except ε α)) T s := by
  induction x generalizing s with
  | done a => exact fun t ht hi => h _ t ht hi (hx t ht hi)
  | fail e => exact fun t ht hi => h _ t ht hi (hx t ht hi)
  | call op next ih =>
    intro t ht hi answer u hu
    obtain ⟨hinv, hlater, hnext⟩ := hx t ht hi answer u hu
    exact ⟨hinv, hlater, ih answer hnext fun r v hv => h r v (P.trans (P.trans ht hlater) hv)⟩

/-- One call: what its answer tells has to stay true. -/
theorem keeps_perform {op : Op} {T : Except ε (Answer op) → σ → Prop}
    (h : ∀ t, P.later s t → P.inv t → ∀ answer u, answers op t answer u →
      P.inv u ∧ P.later t u ∧ ∀ v, P.later u v → P.inv v → T (.ok answer) v) :
    Keeps P answers (perform op : Calls Op Answer ε (Answer op)) T s := h

theorem keeps_ofExcept {r : Except ε α} (h : ∀ t, P.later s t → P.inv t → Q r t) :
    Keeps P answers (ofExcept r : Calls Op Answer ε α) Q s := by
  cases r with
  | error e => exact h
  | ok a => exact h

/-! ## What a program returns -/

section Gives

variable (P : Protocol σ) (answers : (op : Op) → σ → Answer op → σ → Prop)

/-- The protocol is kept, and a value that is returned meets `Q` from then on. -/
def Gives (x : Calls Op Answer ε α) (Q : α → σ → Prop) (s : σ) : Prop :=
  Keeps P answers x (fun r t => ∀ a, r = .ok a → Q a t) s

end Gives

variable {R : α → σ → Prop} {T : β → σ → Prop}

theorem gives_pure {a : α} (h : ∀ t, P.later s t → P.inv t → R a t) :
    Gives P answers (pure a : Calls Op Answer ε α) R s :=
  keeps_pure fun t ht hi _ heq => by cases heq; exact h t ht hi

theorem gives_throw {e : ε} : Gives P answers (throw e : Calls Op Answer ε α) R s := keeps_throw fun _ _ _ => nofun

theorem Gives.bind (hx : Gives P answers x R s)
    (hf : ∀ a t, P.later s t → P.inv t → R a t → Gives P answers (f a) T t) : Gives P answers (x >>= f) T s :=
  Keeps.bind hx (fun a t ht hi h => hf a t ht hi (h a rfl)) fun _ _ _ _ _ => nofun

theorem Gives.mono {R' : α → σ → Prop} (hx : Gives P answers x R s)
    (h : ∀ a t, P.later s t → P.inv t → R a t → R' a t) : Gives P answers x R' s :=
  Keeps.mono hx fun _ t ht hi hr a heq => h a t ht hi (hr a heq)

theorem Gives.attempt (hx : Gives P answers x R s) :
    Gives P answers (x.attempt : Calls Op Answer ε' (Except ε α)) (fun r t => ∀ a, r = .ok a → R a t) s :=
  Keeps.attempt hx fun _ _ _ _ hr _ heq => by cases heq; exact hr

theorem gives_ofExcept {r : Except ε α} (h : ∀ a, r = .ok a → ∀ t, P.later s t → P.inv t → R a t) :
    Gives P answers (ofExcept r : Calls Op Answer ε α) R s :=
  keeps_ofExcept fun t ht hi a heq => h a heq t ht hi

/-- A test of the program: it goes on when the test passes. -/
theorem gives_check {r : Except ε α} (h : ∀ a, r = .ok a → Gives P answers (f a) T s) :
    Gives P answers (ofExcept r >>= f) T s := by
  cases r with
  | error e => exact keeps_throw fun _ _ _ => nofun
  | ok a => exact h a rfl

theorem gives_perform {op : Op} {R : Answer op → σ → Prop}
    (h : ∀ t, P.later s t → P.inv t → ∀ answer u, answers op t answer u →
      P.inv u ∧ P.later t u ∧ ∀ v, P.later u v → P.inv v → R answer v) :
    Gives P answers (perform op : Calls Op Answer ε (Answer op)) R s := by
  refine keeps_perform fun t ht hi answer u hu => ?_
  obtain ⟨hinv, hlater, hR⟩ := h t ht hi answer u hu
  exact ⟨hinv, hlater, fun v hv hvi a heq => by cases heq; exact hR v hv hvi⟩

/-- Alone, a program that keeps the protocol ends in a later state with what it promises. -/
theorem Keeps.ends {r : Except ε α} (hx : Keeps P answers x Q s) (hi : P.inv s) (h : Ends answers x s r t) :
    P.inv t ∧ P.later s t ∧ Q r t := by
  induction x generalizing s with
  | done a =>
    obtain ⟨rfl, rfl⟩ := h
    exact ⟨hi, P.refl _, hx _ (P.refl _) hi⟩
  | fail e =>
    obtain ⟨rfl, rfl⟩ := h
    exact ⟨hi, P.refl _, hx _ (P.refl _) hi⟩
  | call op next ih =>
    obtain ⟨answer, u, hanswer, hnext⟩ := h
    obtain ⟨hinv, hlater, hkeeps⟩ := hx _ (P.refl _) hi answer u hanswer
    obtain ⟨ht, hut, hq⟩ := ih answer hkeeps hinv hnext
    exact ⟨ht, P.trans hlater hut, hq⟩

end Calls
