/-
Merging several streams through a heap of their heads.

The least head is taken, from the first stream that has it, and its stream goes on with the next element. Whatever the
order, nothing is lost and nothing is made up.
-/
import Mathlib

namespace KMerge

variable {α : Type}

/-- The number of elements left in all streams. -/
def size (streams : List (List α)) : Nat := (streams.map List.length).sum

/-- The least head, and the streams without it. -/
def popLeast (le : α → α → Bool) : List (List α) → Option (α × List (List α))
  | [] => none
  | [] :: rest => (popLeast le rest).map fun popped => (popped.1, [] :: popped.2)
  | (x :: xs) :: rest =>
    match popLeast le rest with
    | none => some (x, xs :: rest)
    | some popped => if le x popped.1 then some (x, xs :: rest) else some (popped.1, (x :: xs) :: popped.2)

theorem popLeast_perm {le : α → α → Bool} {streams rest : List (List α)} {a : α}
    (h : popLeast le streams = some (a, rest)) :
    (a :: rest.flatten).Perm streams.flatten := by
  induction streams generalizing a rest with
  | nil => cases h
  | cons stream streams ih =>
    cases stream with
    | nil =>
      obtain ⟨⟨b, r⟩, hpop, heq⟩ := Option.map_eq_some_iff.mp h
      cases heq
      exact show (b :: r.flatten).Perm streams.flatten from ih hpop
    | cons x xs =>
      rw [popLeast] at h
      split at h
      next => cases h; exact .refl _
      next popped hpop =>
        split at h <;> cases h
        · exact .refl _
        · have hperm := ih hpop
          exact List.perm_middle.symm.trans (hperm.append_left (x :: xs))

theorem popLeast_none {le : α → α → Bool} {streams : List (List α)} (h : popLeast le streams = none) :
    streams.flatten = [] := by
  induction streams with
  | nil => rfl
  | cons stream streams ih =>
    cases stream with
    | nil => exact ih (Option.map_eq_none_iff.mp h)
    | cons x xs =>
      rw [popLeast] at h
      split at h
      · cases h
      · split at h <;> cases h

theorem size_popLeast {le : α → α → Bool} {streams rest : List (List α)} {a : α}
    (h : popLeast le streams = some (a, rest)) :
    size rest < size streams := by
  have := (popLeast_perm h).length_eq
  rw [List.length_cons, List.length_flatten, List.length_flatten] at this
  unfold size
  omega

def merge (le : α → α → Bool) (streams : List (List α)) : List α :=
  match _h : popLeast le streams with
  | none => []
  | some (a, rest) => a :: merge le rest
termination_by size streams
decreasing_by exact size_popLeast _h

/-- **Merging** keeps what the streams hold. -/
theorem merge_perm (le : α → α → Bool) (streams : List (List α)) : (merge le streams).Perm streams.flatten := by
  fun_induction merge le streams with
  | case1 streams h => rw [popLeast_none h]
  | case2 streams a rest h ih => exact (ih.cons a).trans (popLeast_perm h)

/-! ## Copies -/

/-- A list without an element that follows its equal. -/
def dedup [DecidableEq α] : List α → List α
  | [] => []
  | [a] => [a]
  | a :: b :: l => if a = b then dedup (b :: l) else a :: dedup (b :: l)

theorem mem_dedup [DecidableEq α] {a : α} {l : List α} : a ∈ dedup l ↔ a ∈ l := by
  induction l using dedup.induct with
  | case1 => simp [dedup]
  | case2 => simp [dedup]
  | case3 b l ih => simp [dedup, ih]
  | case4 b c l hne ih => simp [dedup, hne, ih]

end KMerge
