/-
Going through a changing collection bit by bit, in one direction.

A stretch visits once each what is there and lies between where it started and where it stops. What is there through a
whole sweep, from before everything to after everything, is visited once.
-/
import Mathlib

namespace Sweep

variable {α : Type}

/-- One stretch over the items there are: `passed` is what lies behind when it starts, `passed'` when it stops. -/
structure Stretch (items : List α) (passed passed' : α → Prop) (visits : List α) : Prop where
  mono : ∀ a, passed a → passed' a
  nodup : visits.Nodup
  mem : ∀ a, a ∈ visits ↔ a ∈ items ∧ ¬ passed a ∧ passed' a

/-- Stretches one after the other, each over the items there are at its time. -/
inductive Stretches : List (List α) → (α → Prop) → (α → Prop) → List α → Prop
  | nil {passed : α → Prop} : Stretches [] passed passed []
  | cons {items : List α} {rest : List (List α)} {passed passed' passed'' : α → Prop} {visits visits' : List α}
      (first : Stretch items passed passed' visits) (later : Stretches rest passed' passed'' visits') :
      Stretches (items :: rest) passed passed'' (visits ++ visits')

variable {rest : List (List α)} {passed passed' : α → Prop} {visits : List α} {a : α}

/-- What lies behind is not visited again. -/
theorem Stretches.not_mem (h : Stretches rest passed passed' visits) (ha : passed a) : a ∉ visits := by
  induction h with
  | nil => exact List.not_mem_nil
  | cons first _ ih =>
    rw [List.mem_append, first.mem, not_or]
    exact ⟨fun hvisit => hvisit.2.1 ha, ih (first.mono a ha)⟩

/-- **A sweep.** What is there all the time, ahead at the start and behind at the end, is visited exactly once. -/
theorem Stretches.count_eq_one [BEq α] [LawfulBEq α] (h : Stretches rest passed passed' visits)
    (hthere : ∀ items ∈ rest, a ∈ items)
    (hahead : ¬ passed a) (hbehind : passed' a) : visits.count a = 1 := by
  induction h with
  | nil => exact absurd hbehind hahead
  | @cons items rest passed passed' passed'' visits visits' first later ih =>
    obtain ⟨hitem, hitems⟩ := List.forall_mem_cons.mp hthere
    rw [List.count_append]
    by_cases hnow : passed' a
    · rw [List.count_eq_one_of_mem first.nodup ((first.mem a).mpr ⟨hitem, hahead, hnow⟩),
        List.count_eq_zero_of_not_mem (later.not_mem hnow)]
    · have hnot : a ∉ visits := fun hvisit => hnow ((first.mem a).mp hvisit).2.2
      rw [List.count_eq_zero_of_not_mem hnot, ih hitems hnow hbehind]

end Sweep
