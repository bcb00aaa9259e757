/-
A stable sort as it grows: one more element at the end of the list goes behind everything that may stand in front of it,
and the first few of the sorted list change only if it stands in front of the last of them.
-/
import Mathlib

namespace StableSort

variable {α β : Type} (r : α → α → Prop) [DecidableRel r]

/-- An element behind everything that may stand in front of it. -/
def insertLate (a : α) : List α → List α
  | [] => [a]
  | b :: l => if r b a then b :: insertLate a l else a :: b :: l

theorem mem_insertLate {a b : α} {l : List α} : b ∈ insertLate r a l ↔ b = a ∨ b ∈ l := by
  induction l with
  | nil => simp [insertLate]
  | cons c l ih =>
    rw [insertLate]
    split
    · rw [List.mem_cons, ih, List.mem_cons]
      tauto
    · rw [List.mem_cons]

/-- Where two orders agree about an element, it goes to the same place. -/
theorem map_insertLate {s : β → β → Prop} [DecidableRel s] (f : α → β) {a : α} {l : List α}
    (h : ∀ b ∈ l, r b a ↔ s (f b) (f a)) : (insertLate r a l).map f = insertLate s (f a) (l.map f) := by
  induction l with
  | nil => rfl
  | cons b l ih =>
    have hrest := ih fun c hc => h c (List.mem_cons_of_mem b hc)
    have hb := h b List.mem_cons_self
    rw [List.map_cons, insertLate, insertLate]
    by_cases hba : r b a
    · rw [if_pos hba, if_pos (hb.mp hba), List.map_cons, hrest]
    · rw [if_neg hba, if_neg fun hs => hba (hb.mpr hs)]
      rfl

/-- Into a list in strict order, behind what is less than it and in front of the rest. -/
theorem pairwise_insertLate (lt : α → α → Prop) (htrans : ∀ a b c, lt a b → lt b c → lt a c) {a : α} {l : List α}
    (hbefore : ∀ b ∈ l, r b a → lt b a) (hafter : ∀ b ∈ l, ¬r b a → lt a b) (h : l.Pairwise lt) :
    (insertLate r a l).Pairwise lt := by
  induction l with
  | nil => exact List.pairwise_singleton lt a
  | cons b l ih =>
    obtain ⟨hb, hl⟩ := List.pairwise_cons.mp h
    rw [insertLate]
    split
    next hba =>
      refine List.pairwise_cons.mpr ⟨fun c hc => ?_, ih (fun c hc => hbefore c (List.mem_cons_of_mem b hc))
        (fun c hc => hafter c (List.mem_cons_of_mem b hc)) hl⟩
      rcases (mem_insertLate r).mp hc with rfl | hc
      · exact hbefore b List.mem_cons_self hba
      · exact hb c hc
    next hba =>
      have hab := hafter b List.mem_cons_self hba
      refine List.pairwise_cons.mpr ⟨fun c hc => ?_, h⟩
      rcases List.mem_cons.mp hc with rfl | hc
      · exact hab
      · exact htrans a b c hab (hb c hc)

/-! ## Sorting -/

section Sorting

variable [Std.Total r] [IsTrans α r]

theorem orderedInsert_insertLate (a b : α) (l : List α) :
    (insertLate r a l).orderedInsert r b = insertLate r a (l.orderedInsert r b) := by
  induction l with
  | nil =>
    rw [insertLate, List.orderedInsert_nil, insertLate, List.orderedInsert_cons]
    split <;> rfl
  | cons c l ih =>
    by_cases hca : r c a
    · rw [insertLate, if_pos hca, List.orderedInsert_cons, List.orderedInsert_cons]
      by_cases hbc : r b c
      · rw [if_pos hbc, if_pos hbc, insertLate, if_pos (IsTrans.trans b c a hbc hca), insertLate, if_pos hca]
      · rw [if_neg hbc, if_neg hbc, insertLate, if_pos hca, ih]
    · have hac : r a c := (Std.Total.total a c).resolve_right hca
      rw [insertLate, if_neg hca, List.orderedInsert_cons, List.orderedInsert_cons]
      by_cases hba : r b a
      · have hbc := IsTrans.trans b a c hba hac
        rw [if_pos hba, if_pos hbc, insertLate, if_pos hba, insertLate, if_neg hca]
      · rw [if_neg hba]
        by_cases hbc : r b c
        · rw [if_pos hbc, insertLate, if_neg hba]
        · rw [if_neg hbc, insertLate, if_neg hca]

/-- **One more element.** It goes behind everything that may stand in front of it. -/
theorem insertionSort_concat (l : List α) (a : α) :
    (l ++ [a]).insertionSort r = insertLate r a (l.insertionSort r) := by
  induction l with
  | nil => rfl
  | cons b l ih =>
    rw [List.cons_append, List.insertionSort_cons, ih, orderedInsert_insertLate, List.insertionSort_cons]

omit [Std.Total r] in
/-- Into a list in order, and some of it taken away. -/
theorem filter_orderedInsert (p : α → Bool) (a : α) {l : List α} (h : l.Pairwise r) :
    (l.orderedInsert r a).filter p = if p a then (l.filter p).orderedInsert r a else l.filter p := by
  induction l with
  | nil => cases hp : p a <;> simp [hp]
  | cons b l ih =>
    obtain ⟨hb, hl⟩ := List.pairwise_cons.mp h
    rw [List.orderedInsert_cons]
    by_cases hab : r a b
    · rw [if_pos hab, List.filter_cons]
      split
      · -- what is left of the list begins with an element that is not in front of `b`
        cases hrest : (b :: l).filter p with
        | nil => rfl
        | cons c rest =>
          have hac : r a c := by
            have hc : c ∈ b :: l := List.mem_of_mem_filter (hrest ▸ List.mem_cons_self)
            rcases List.mem_cons.mp hc with rfl | hc
            · exact hab
            · exact IsTrans.trans a b c hab (hb c hc)
          rw [List.orderedInsert_cons, if_pos hac]
      · rfl
    · rw [if_neg hab, List.filter_cons, List.filter_cons, ih hl]
      split
      · split
        · rw [List.orderedInsert_cons, if_neg hab]
        · rfl
      · rfl

/-- A sort of what is taken from a list is taken from the sorted list. -/
theorem insertionSort_filter (p : α → Bool) (l : List α) :
    (l.filter p).insertionSort r = (l.insertionSort r).filter p := by
  induction l with
  | nil => rfl
  | cons a l ih =>
    rw [List.insertionSort_cons, filter_orderedInsert r p a (List.pairwise_insertionSort r l), ← ih, List.filter_cons]
    split <;> rfl

end Sorting

/-! ## The first few -/

/-- Behind all of the first few, they stay. -/
theorem take_insertLate_of_forall {a : α} {l : List α} {k : Nat} (hk : k ≤ l.length) (h : ∀ b ∈ l.take k, r b a) :
    (insertLate r a l).take k = l.take k := by
  induction l generalizing k with
  | nil =>
    rw [List.length_nil, Nat.le_zero] at hk
    rw [hk]
    rfl
  | cons b l ih =>
    cases k with
    | zero => rfl
    | succ k =>
      rw [List.take_succ_cons] at h
      have hb := h b List.mem_cons_self
      rw [insertLate, if_pos hb, List.take_succ_cons, List.take_succ_cons,
        ih (Nat.le_of_succ_le_succ hk) fun c hc => h c (List.mem_cons_of_mem b hc)]

/-- In front of the last of the first few, it takes a place and the last one goes. -/
theorem take_insertLate_of_not {a worst : α} {l : List α} {k : Nat} (hworst : l[k]? = some worst) (h : ¬r worst a) :
    (insertLate r a l).take (k + 1) = insertLate r a (l.take k) := by
  induction l generalizing k with
  | nil => cases hworst
  | cons b l ih =>
    cases k with
    | zero =>
      cases hworst
      rw [insertLate, if_neg h]
      rfl
    | succ k =>
      rw [List.take_succ_cons, insertLate, insertLate]
      split
      · rw [List.take_succ_cons, ih hworst]
      · rw [List.take_succ_cons, List.take_succ_cons]

end StableSort
