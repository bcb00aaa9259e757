/-
Cutting a list into groups of one key and of bounded size, in two ways: by the bounds that a walk over the whole list
finds, and online, an element at a time.
-/
import Mathlib

namespace Cuts

variable {α κ : Type} [DecidableEq κ] (key : α → κ) (size : Nat)

/-! ## Online -/

/-- The group is cut before the element: it has another key, or it finds the group full. -/
def closes (group : List α) (a : α) : Bool := (group.head?.any fun first => key first ≠ key a) || size ≤ group.length

/-- The groups of the rest of a list, with the group that is being filled. -/
def online (group : List α) : List α → List (List α)
  | [] => if group.isEmpty then [] else [group]
  | a :: l => if closes key size group a then group :: online [a] l else online (group ++ [a]) l

/-! ## By bounds -/

def slice (l : List α) (bound : Nat × Nat) : List α := (l.drop bound.1).take (bound.2 - bound.1)

/-- Where the run of one key that begins here ends. -/
def runEnd (l : List α) (start : Nat) : Nat :=
  start + ((l.drop start).takeWhile fun a => (l.drop start).head?.any fun first => key a = key first).length

/-- A run in pieces. The loop of a program that does this with pieces of no element does not end. -/
def pieces (start stop : Nat) : List (Nat × Nat) :=
  if start < stop ∧ 0 < size then (start, min (start + size) stop) :: pieces (min (start + size) stop) stop else []
termination_by stop - start

theorem lt_runEnd {l : List α} {start : Nat} (h : start < l.length) : start < runEnd key l start := by
  rw [runEnd, List.drop_eq_getElem_cons h, List.head?_cons]
  simp only [Option.any_some, decide_true, List.takeWhile_cons_of_pos, List.length_cons]
  omega

def boundsFrom (l : List α) (start : Nat) : List (Nat × Nat) :=
  if _h : start < l.length then pieces size start (runEnd key l start) ++ boundsFrom l (runEnd key l start) else []
termination_by l.length - start
decreasing_by
  have := lt_runEnd key _h
  omega

def bounds (l : List α) : List (Nat × Nat) := boundsFrom key size l 0

/-! ## The groups are the list -/

variable {key size}

theorem closes_nil (hsize : 0 < size) (a : α) : closes key size [] a = false := by
  simp [closes]
  omega

theorem online_flatten (group l : List α) : (online key size group l).flatten = group ++ l := by
  induction l generalizing group with
  | nil => cases group <;> rfl
  | cons a l ih =>
    rw [online]
    split
    · rw [List.flatten_cons, ih]
      rfl
    · rw [ih, List.append_assoc]
      rfl

/-- No group is empty, and all of a group have one key. -/
theorem online_group (hsize : 0 < size) {group l : List α} (hsame : ∀ a ∈ group, ∀ b ∈ group, key a = key b)
    {x : List α} (hx : x ∈ online key size group l) : x ≠ [] ∧ ∀ a ∈ x, ∀ b ∈ x, key a = key b := by
  induction l generalizing group with
  | nil =>
    cases group with
    | nil => cases hx
    | cons c group =>
      cases List.mem_singleton.mp hx
      exact ⟨List.cons_ne_nil _ _, hsame⟩
  | cons a l ih =>
    rw [online] at hx
    split at hx
    next hcloses =>
      rcases List.mem_cons.mp hx with rfl | hx
      · refine ⟨?_, hsame⟩
        rintro rfl
        rw [closes_nil hsize] at hcloses
        cases hcloses
      · exact ih (by simp) hx
    next hopen =>
      refine ih ?_ hx
      cases group with
      | nil => simp
      | cons c group =>
        have hac : key c = key a := by
          simp only [closes, List.head?_cons, Option.any_some, Bool.or_eq_true, decide_eq_true_eq] at hopen
          exact not_not.mp fun hne => hopen (Or.inl hne)
        have hkey : ∀ b ∈ c :: group ++ [a], key b = key c := by
          intro b hb
          rcases List.mem_append.mp hb with hb | hb
          · exact hsame b hb c List.mem_cons_self
          · rw [List.mem_singleton.mp hb, hac]
        exact fun b hb d hd => (hkey b hb).trans (hkey d hd).symm

/-! ## Both ways agree -/

theorem mem_slice {l : List α} {start stop : Nat} {a : α} :
    a ∈ slice l (start, stop) ↔ ∃ i, start ≤ i ∧ i < stop ∧ l[i]? = some a := by
  rw [slice, List.mem_iff_getElem?]
  simp only [List.getElem?_take, List.getElem?_drop, Option.ite_none_right_eq_some]
  constructor
  · rintro ⟨i, hi, h⟩
    exact ⟨start + i, by omega, by omega, h⟩
  · rintro ⟨i, hstart, hstop, h⟩
    exact ⟨i - start, by omega, by rwa [show start + (i - start) = i by omega]⟩

/-- Elements of the key of the group are taken while there is room. -/
theorem online_fill {k : κ} {xs group rest : List α} (hgroup : ∀ a ∈ group, key a = k) (hxs : ∀ a ∈ xs, key a = k)
    (hroom : group.length + xs.length ≤ size) : online key size group (xs ++ rest) = online key size
    (group ++ xs) rest := by
  induction xs generalizing group with
  | nil => rw [List.append_nil, List.nil_append]
  | cons a xs ih =>
    rw [List.length_cons] at hroom
    have hopen : closes key size group a = false := by
      cases group with
      | nil => exact closes_nil (by omega) a
      | cons c group =>
        have hkey : key c = key a := (hgroup c List.mem_cons_self).trans (hxs a List.mem_cons_self).symm
        simp only [closes, List.head?_cons, Option.any_some, hkey, ne_eq, not_true, decide_false, Bool.false_or,
          decide_eq_false_iff_not]
        omega
    rw [List.cons_append, online, hopen, if_neg Bool.false_ne_true, ih, List.append_assoc]
    · rfl
    · intro b hb
      rcases List.mem_append.mp hb with hb | hb
      · exact hgroup b hb
      · rw [List.mem_singleton.mp hb]
        exact hxs a List.mem_cons_self
    · exact fun b hb => hxs b (List.mem_cons_of_mem _ hb)
    · rw [List.length_append, List.length_singleton]
      omega

theorem online_close (hsize : 0 < size) {group rest : List α} (hgroup : group ≠ [])
    (hcloses : ∀ a ∈ rest.head?, closes key size group a = true) :
    online key size group rest = group :: online key size [] rest := by
  cases rest with
  | nil =>
    rw [online, online, if_pos List.isEmpty_nil, if_neg (by simpa using hgroup)]
  | cons a rest =>
    rw [online, online, if_pos (hcloses a rfl), closes_nil hsize, if_neg Bool.false_ne_true]
    rfl

/-- One piece of a run. -/
theorem online_piece (hsize : 0 < size) {l : List α} {start stop : Nat} {k : κ} (hlt : start < stop)
    (hstop : stop ≤ l.length)
    (hrun : ∀ a ∈ slice l (start, stop), key a = k) (hnext : ∀ a ∈ (l.drop stop).head?, key a ≠ k) :
    online key size [] (l.drop start)
      = slice l (start, min (start + size) stop) :: online key size [] (l.drop (min (start + size) stop)) := by
  set cut := min (start + size) stop with hcut
  have hsplit : l.drop start = slice l (start, cut) ++ l.drop cut := by
    have := (List.take_append_drop (cut - start) (l.drop start)).symm
    rwa [List.drop_drop, show start + (cut - start) = cut by omega] at this
  have hlength : (slice l (start, cut)).length = cut - start := by
    rw [slice, List.length_take, List.length_drop]
    omega
  have hkeys : ∀ a ∈ slice l (start, cut), key a = k := by
    intro a ha
    obtain ⟨i, hi, hicut, hget⟩ := mem_slice.mp ha
    exact hrun a (mem_slice.mpr ⟨i, hi, by omega, hget⟩)
  have hne : slice l (start, cut) ≠ [] := by
    intro hnil
    rw [hnil, List.length_nil] at hlength
    omega
  rw [hsplit, online_fill (by simp) hkeys (by rw [List.length_nil]; omega), List.nil_append]
  refine online_close hsize hne fun a ha => ?_
  obtain ⟨c, rest, hcons⟩ := List.exists_cons_of_ne_nil hne
  rcases lt_or_ge (start + size) stop with hfull | hend
  · -- The piece is full.
    rw [closes, Bool.or_eq_true, decide_eq_true_eq, hlength]
    exact .inr (by omega)
  · -- The run ends with the piece.
    have hkey : key a ≠ k := hnext a (by rwa [show cut = stop by omega] at ha)
    rw [closes, hcons, List.head?_cons, Option.any_some, Bool.or_eq_true, decide_eq_true_eq]
    exact .inl fun heq => hkey (heq ▸ hkeys c (hcons ▸ List.mem_cons_self))

theorem pieces_map_slice (hsize : 0 < size) {l : List α} {start stop : Nat} {k : κ} (hle : start ≤ stop)
    (hstop : stop ≤ l.length) (hrun : ∀ a ∈ slice l (start, stop), key a = k)
    (hnext : ∀ a ∈ (l.drop stop).head?, key a ≠ k) :
    (pieces size start stop).map (slice l) ++ online key size [] (l.drop stop) = online key size [] (l.drop start) := by
  fun_induction pieces size start stop with
  | case1 start h ih =>
    rw [List.map_cons, List.cons_append, ih (by omega), online_piece hsize h.1 hstop hrun hnext]
    intro a ha
    obtain ⟨i, hi, histop, hget⟩ := mem_slice.mp ha
    exact hrun a (mem_slice.mpr ⟨i, by omega, histop, hget⟩)
  | case2 start h =>
    rw [show start = stop by omega]
    rfl

/-- A run is of one key, and what follows it is of another one. -/
theorem runEnd_spec (key : α → κ) {l : List α} {start : Nat} (h : start < l.length) :
    runEnd key l start ≤ l.length ∧ (∀ a ∈ slice l (start, runEnd key l start), key a = key l[start]) ∧
      ∀ a ∈ (l.drop (runEnd key l start)).head?, key a ≠ key l[start] := by
  have hend : runEnd key l start = start + ((l.drop start).takeWhile fun a => key a = key l[start]).length := by
    rw [runEnd, List.head?_drop, List.getElem?_eq_getElem h]
    rfl
  have happend := List.takeWhile_append_dropWhile (p := fun a => decide (key a = key l[start])) (l := l.drop start)
  refine ⟨?_, ?_, ?_⟩
  · have := (List.takeWhile_sublist (l := l.drop start) fun a => decide (key a = key l[start])).length_le
    rw [List.length_drop] at this
    omega
  · intro a ha
    rw [slice, hend, Nat.add_sub_cancel_left, ← happend, List.take_left'] at ha
    · simpa using List.mem_takeWhile_imp ha
    · rw [happend]
  · intro a ha
    rw [hend, ← List.drop_drop, ← happend, List.drop_left'] at ha
    · have := List.head?_dropWhile_not (fun a => decide (key a = key l[start])) (l.drop start)
      rw [Option.mem_def.mp ha] at this
      simpa using this
    · rw [happend]

/-- **Cutting by bounds and cutting online** give the same groups. -/
theorem bounds_map_slice (hsize : 0 < size) (l : List α) :
    (bounds key size l).map (slice l) = online key size [] l := by
  suffices h : ∀ start ≤ l.length, (boundsFrom key size l start).map (slice l) = online key size [] (l.drop start) from
    h 0 (Nat.zero_le _)
  intro start
  fun_induction boundsFrom key size l start with
  | case1 start h ih =>
    intro _
    obtain ⟨hle, hrun, hnext⟩ := runEnd_spec key h
    rw [List.map_append, ih hle]
    exact pieces_map_slice hsize (lt_runEnd key h).le hle hrun hnext
  | case2 start h =>
    intro hle
    rw [List.drop_eq_nil_of_le (by omega)]
    rfl

theorem mem_pieces {start stop : Nat} {bound : Nat × Nat} (h : bound ∈ pieces size start stop) :
    bound.1 ≤ bound.2 ∧ bound.2 ≤ stop := by
  fun_induction pieces size start stop with
  | case1 start hlt ih =>
    rcases List.mem_cons.mp h with rfl | h
    · exact ⟨by simp; omega, by simp⟩
    · exact ih h
  | case2 => cases h

theorem length_slice {l : List α} {bound : Nat × Nat} (h : bound ∈ bounds key size l) :
    (slice l bound).length = bound.2 - bound.1 := by
  suffices hend : ∀ start, bound ∈ boundsFrom key size l start → bound.1 ≤ bound.2 ∧ bound.2 ≤ l.length by
    have := hend 0 h
    rw [slice, List.length_take, List.length_drop]
    omega
  intro start hmem
  fun_induction boundsFrom key size l start with
  | case1 start hlt ih =>
    rcases List.mem_append.mp hmem with hmem | hmem
    · have := mem_pieces hmem
      have := (runEnd_spec key hlt).1
      omega
    · exact ih hmem
  | case2 => cases hmem

end Cuts
