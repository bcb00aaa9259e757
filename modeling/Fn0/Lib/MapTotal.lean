/-
Totals over ordered maps: a number for every pair, added up. Updates are stated as balances, with what leaves the map on
one side and what enters it on the other, so that nothing is subtracted.
-/
import Fn0.Lib.OrdMap

namespace OrdMap

open Std (ExtTreeMap)

variable {κ α β : Type} [LinearOrder κ]

theorem getElem?_erase (m : ExtTreeMap κ α compare) (k a : κ) : (m.erase k)[a]? = if k = a then none else m[a]? := by
  rw [ExtTreeMap.getElem?_erase]
  simp only [compare_eq_iff_eq]

theorem getElem?_of_erase {m : ExtTreeMap κ α compare} {k a : κ} {v : α} (h : (m.erase k)[a]? = some v) :
    m[a]? = some v := by
  rw [getElem?_erase] at h
  split at h
  · cases h
  · exact h

@[simp] theorem getElem?_erase_self (m : ExtTreeMap κ α compare) (k : κ) : (m.erase k)[k]? = none := by
  rw [getElem?_erase, if_pos rfl]

@[simp] theorem getElem?_insert_self (m : ExtTreeMap κ α compare) (k : κ) (v : α) : (m.insert k v)[k]? = some v := by
  rw [getElem?_insert, if_pos rfl]

theorem getElem?_insert_of_ne (m : ExtTreeMap κ α compare) {k a : κ} (v : α) (h : a ≠ k) :
    (m.insert k v)[a]? = m[a]? := by
  rw [getElem?_insert, if_neg (Ne.symm h)]

variable {f g : κ → α → Nat} {m : ExtTreeMap κ α compare}

/-- The pairs of a map are the one of a key and those of the others. -/
theorem toList_perm_erase {k : κ} {v : α} (h : m[k]? = some v) : m.toList.Perm ((k, v) :: (m.erase k).toList) := by
  refine (List.perm_ext_iff_of_nodup (toList_sorted m).nodup ?_).mpr fun ⟨a, w⟩ => ?_
  · refine List.nodup_cons.mpr ⟨fun hmem => ?_, (toList_sorted _).nodup⟩
    rw [mem_toList, getElem?_erase_self] at hmem
    cases hmem
  · rw [List.mem_cons, mem_toList, mem_toList, getElem?_erase]
    by_cases ha : k = a
    · subst ha
      simp [h, eq_comm]
    · simp [ha, Ne.symm ha]

theorem erase_of_none {k : κ} (h : m[k]? = none) : m.erase k = m :=
  ExtTreeMap.ext_getElem? fun a => by
    by_cases ha : k = a
    · rw [← ha, getElem?_erase_self, h]
    · rw [getElem?_erase, if_neg ha]

theorem erase_insert_self (k : κ) (v : α) : (m.insert k v).erase k = m.erase k :=
  ExtTreeMap.ext_getElem? fun a => by
    rw [getElem?_erase, getElem?_erase, getElem?_insert]
    split <;> rfl

end OrdMap
