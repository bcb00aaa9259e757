/-
Ordered maps and sets as sorted lists: what a map holds is what its list of pairs holds, and a strictly
sorted list is the list of the map it was collected into.
-/
import Mathlib

namespace OrdMap

open Std (ExtTreeMap ExtTreeSet)

variable {κ α : Type} [LinearOrder κ]

/-- Pairs in the strict order of their keys. -/
def Sorted (l : List (κ × α)) : Prop := l.Pairwise fun a b => a.1 < b.1

theorem Sorted.nodup {l : List (κ × α)} (h : Sorted l) : l.Nodup :=
  h.imp fun hlt heq => absurd (congrArg Prod.fst heq) hlt.ne

/-- Sorted lists with the same pairs are equal. -/
theorem Sorted.ext {l l' : List (κ × α)} (h : Sorted l) (h' : Sorted l') (hm : ∀ p, p ∈ l ↔ p ∈ l') : l = l' := by
  have hperm : l.Perm l' := (List.perm_ext_iff_of_nodup h.nodup h'.nodup).mpr hm
  exact hperm.eq_of_pairwise (fun a b _ _ hab hba => absurd (hab.trans hba) (lt_irrefl _)) h h'

theorem toList_sorted (m : ExtTreeMap κ α compare) : Sorted m.toList :=
  ExtTreeMap.ordered_keys_toList.imp fun h => compare_lt_iff_lt.mp h

theorem set_toList_sorted (s : ExtTreeSet κ compare) : s.toList.Pairwise (· < ·) :=
  ExtTreeSet.ordered_toList.imp fun h => compare_lt_iff_lt.mp h

theorem mem_toList {m : ExtTreeMap κ α compare} {k : κ} {v : α} : (k, v) ∈ m.toList ↔ m[k]? = some v :=
  ExtTreeMap.mem_toList_iff_getElem?_eq_some

theorem getElem?_insert (m : ExtTreeMap κ α compare) (k a : κ) (v : α) :
    (m.insert k v)[a]? = if k = a then some v else m[a]? := by
  rw [ExtTreeMap.getElem?_insert]
  simp only [compare_eq_iff_eq]

/-- Looking up a list of pairs with distinct keys. -/
theorem getElem?_ofList {l : List (κ × α)} (h : (l.map Prod.fst).Nodup) {k : κ} {v : α} :
    (ExtTreeMap.ofList l compare)[k]? = some v ↔ (k, v) ∈ l := by
  have hdist : l.Pairwise fun a b => ¬ compare a.1 b.1 = .eq := by
    rw [List.Nodup, List.pairwise_map] at h
    exact h.imp fun hne heq => hne (compare_eq_iff_eq.mp heq)
  constructor
  · intro hk
    by_cases hc : (l.map Prod.fst).contains k = true
    · obtain ⟨⟨k', v'⟩, hm, hk'⟩ := List.mem_map.mp (List.contains_iff_mem.mp hc)
      cases (show k' = k from hk')
      rw [ExtTreeMap.getElem?_ofList_of_mem (compare_eq_iff_eq.mpr rfl) hdist hm] at hk
      cases hk
      exact hm
    · rw [ExtTreeMap.getElem?_ofList_of_contains_eq_false (by simpa using hc)] at hk
      cases hk
  · exact ExtTreeMap.getElem?_ofList_of_mem (compare_eq_iff_eq.mpr rfl) hdist

/-- Writes of distinct keys, one after the other: at a key there is what the write of that key made, or what was
there. -/
theorem look_foldl {σ μ β ι : Type} [DecidableEq ι] {write : σ → μ → σ} (look : σ → β) {keyOf : μ → ι} (k : ι)
    (hother : ∀ s m, keyOf m ≠ k → look (write s m) = look s)
    (hown : ∀ s s' m, look s = look s' → look (write s m) = look (write s' m)) {ms : List μ}
    (h : (ms.map keyOf).Nodup) (s : σ) :
    look (ms.foldl write s) = ((ms.find? (keyOf · = k)).map fun m => look (write s m)).getD (look s) := by
  induction ms generalizing s with
  | nil => rfl
  | cons m ms ih =>
    rw [List.map_cons, List.nodup_cons] at h
    rw [List.foldl_cons, ih h.2]
    by_cases heq : keyOf m = k
    · have hnone : ms.find? (keyOf · = k) = none := by
        rw [List.find?_eq_none]
        intro other hm hother
        rw [decide_eq_true_eq] at hother
        exact h.1 (List.mem_map.mpr ⟨other, hm, hother.trans heq.symm⟩)
      simp [hnone, heq]
    · rw [List.find?_cons_of_neg (by simpa using heq), hother s m heq]
      cases ms.find? (keyOf · = k) with
      | none => rfl
      | some other => exact hown _ _ other (hother s m heq)

end OrdMap
