/-
Computations that read a stream from the front.

The state of a reader is looked at through `left`, the items it has not read yet. `Consumes r used a`: in front of
anything, `r` takes exactly `used` and returns `a`. `Causal r`: what `r` returned, it returned because of the items it
took, so that it does the same in front of any other rest. A causal reader that consumes a whole text accepts none of
its proper prefixes.
-/
import Fn0.Lib.Eff

namespace Eff

variable {δ σ τ α β : Type} {left : σ → List τ}

/-- In front of anything, the computation takes exactly `used` and returns `a`. -/
def Consumes (left : σ → List τ) (x : Eff δ σ α) (used : List τ) (a : α) : Prop :=
  ∀ s rest, left s = used ++ rest → ∃ s', x.exec s = (.ok a, s') ∧ left s' = rest

theorem consumes_pure (a : α) : Consumes left (pure a : Eff δ σ α) [] a :=
  fun s _ hs => ⟨s, rfl, hs⟩

theorem Consumes.bind {x : Eff δ σ α} {k : α → Eff δ σ β} {used used' : List τ} {a : α} {b : β}
    (hx : Consumes left x used a) (hk : Consumes left (k a) used' b) : Consumes left (x >>= k) (used ++ used') b := by
  intro s rest hs
  rw [List.append_assoc] at hs
  obtain ⟨mid, hmid, hleft⟩ := hx s _ hs
  obtain ⟨s', hs', hrest⟩ := hk mid rest hleft
  exact ⟨s', by rw [exec_bind_ok hmid, hs'], hrest⟩

theorem Consumes.bind_cons {x : Eff δ σ α} {k : α → Eff δ σ β} {item : τ} {used : List τ} {a : α} {b : β}
    (hx : Consumes left x [item] a) (hk : Consumes left (k a) used b) : Consumes left (x >>= k) (item :: used) b :=
  hx.bind hk

/-- A first step that reads nothing. -/
theorem Consumes.bind_nil {x : Eff δ σ α} {k : α → Eff δ σ β} {used : List τ} {a : α} {b : β}
    (hx : Consumes left x [] a) (hk : Consumes left (k a) used b) : Consumes left (x >>= k) used b :=
  hx.bind hk

/-- A last step that reads nothing. -/
theorem Consumes.andThen {x : Eff δ σ α} {k : α → Eff δ σ β} {used : List τ} {a : α} {b : β}
    (hx : Consumes left x used a) (hk : Consumes left (k a) [] b) : Consumes left (x >>= k) used b := by
  have h := hx.bind hk
  rwa [List.append_nil] at h

theorem Consumes.map {x : Eff δ σ α} {used : List τ} {a : α} (hx : Consumes left x used a) (f : α → β) :
    Consumes left (x >>= fun a => pure (f a)) used (f a) :=
  hx.andThen (consumes_pure (f a))

/-- A check that passes. -/
theorem consumes_ofExcept {r : Except δ α} {a : α} (h : r = .ok a) :
    Consumes left (ofExcept r : Eff δ σ α) [] a := by
  subst h
  exact consumes_pure a

/-- What the computation returns is due to the items it took. -/
def Causal (left : σ → List τ) (x : Eff δ σ α) : Prop :=
  ∀ s a s', x.exec s = (.ok a, s') → ∃ used, left s = used ++ left s' ∧ Consumes left x used a

theorem causal_pure (a : α) : Causal left (pure a : Eff δ σ α) := by
  intro s b s' h
  cases h
  exact ⟨[], rfl, consumes_pure a⟩

theorem causal_throw (e : δ) : Causal left (throw e : Eff δ σ α) := by
  intro s a s' h
  cases h

theorem causal_ofExcept (r : Except δ α) : Causal left (ofExcept r : Eff δ σ α) := by
  cases r with
  | error e => exact causal_throw e
  | ok a => exact causal_pure a

theorem Causal.bind {x : Eff δ σ α} {k : α → Eff δ σ β} (hx : Causal left x) (hk : ∀ a, Causal left (k a)) :
    Causal left (x >>= k) := by
  intro s b s' h
  rcases hrun : x.exec s with ⟨e | a, mid⟩
  · rw [exec_bind_error hrun] at h
    cases h
  · rw [exec_bind_ok hrun] at h
    obtain ⟨used, hs, hused⟩ := hx s a mid hrun
    obtain ⟨used', hmid, hused'⟩ := hk a mid b s' h
    exact ⟨used ++ used', by rw [hs, hmid, List.append_assoc], hused.bind hused'⟩

/-- The computation takes `count` items and returns a function of them, or refuses when there are fewer. -/
def Takes (left : σ → List τ) (x : Eff δ σ α) (count : Nat) (f : List τ → α) (E : δ → Prop) : Prop :=
  ∀ s, Sat x s (fun a s' => ∃ used, used.length = count ∧ left s = used ++ left s' ∧ a = f used)
    (fun e _ => E e ∧ (left s).length < count)

theorem Takes.consumes {x : Eff δ σ α} {count : Nat} {f : List τ → α} {E : δ → Prop} (hx : Takes left x count f E)
    {used : List τ} (hcount : used.length = count) : Consumes left x used (f used) := by
  intro s rest hs
  have h := hx s
  rcases hrun : x.exec s with ⟨e | a, s'⟩
  · obtain ⟨-, hshort⟩ := h.of_error hrun
    rw [hs, List.length_append] at hshort
    omega
  · obtain ⟨used', hcount', hs', rfl⟩ := h.of_ok hrun
    obtain ⟨rfl, hrest⟩ := List.append_inj (hs'.symm.trans hs) (hcount'.trans hcount.symm)
    exact ⟨s', rfl, hrest⟩

theorem Takes.causal {x : Eff δ σ α} {count : Nat} {f : List τ → α} {E : δ → Prop} (hx : Takes left x count f E) :
    Causal left x := by
  intro s a s' hrun
  obtain ⟨used, hcount, hs, rfl⟩ := (hx s).of_ok hrun
  exact ⟨used, hs, hx.consumes hcount⟩

/-- What is left behind the items, and nothing where there were too few. -/
theorem Takes.sat_drop {x : Eff δ σ α} {count : Nat} {f : List τ → α} {E : δ → Prop} (hx : Takes left x count f E)
    (s : σ) : Sat x s (fun a s' => a = f ((left s).take count) ∧ count ≤ (left s).length ∧
      left s' = (left s).drop count)
      (fun e _ => E e ∧ (left s).length < count) := by
  refine (hx s).mono ?_ fun _ _ h => h
  rintro a s' ⟨used, rfl, hs, rfl⟩
  rw [hs]
  simp

/-- **No proper prefix.** A causal reader that leaves less of a text than was cut from it does not accept what the cut
left. -/
theorem Causal.refuses_cut {x : Eff δ σ α} (hx : Causal left x) {whole cut : σ} {used rest missing : List τ} {a : α}
    (hused : Consumes left x used a) (hwhole : left whole = used ++ rest) (hcut : left whole = left cut ++ missing)
    (hlong : rest.length < missing.length) : ∀ b s', x.exec cut ≠ (.ok b, s') := by
  intro b s' h
  obtain ⟨used', hs, hcauses⟩ := hx cut b s' h
  obtain ⟨t, ht, hleft⟩ := hused whole rest hwhole
  obtain ⟨t', ht', hleft'⟩ := hcauses whole (left s' ++ missing) (by rw [hcut, hs, List.append_assoc])
  rw [ht] at ht'
  cases ht'
  rw [hleft] at hleft'
  rw [hleft', List.length_append] at hlong
  omega

end Eff
