/-
What a written value is read as.

What is written for a value is the text of one JSON value. The states of the writer put a comma between any two
elements.
-/
import Mathlib
import Fn0.Forte.Json

namespace Forte

open Std (ExtTreeMap)

/-! ## Induction on types -/

@[elab_as_elim, induction_eliminator]
theorem Ty.inductOn {P : Ty → Prop} (bool : P .bool) (int : ∀ signed bits, P (.int signed bits)) (str : P .str)
    (option : ∀ t, P t → P (.option t)) (seq : ∀ t, P t → P (.seq t)) (tuple : ∀ ts, (∀ t ∈ ts, P t) → P (.tuple ts))
    (struct : ∀ fields, (∀ field ∈ fields, P field.2) → P (.struct fields)) (map : ∀ t, P t → P (.map t)) (t : Ty) :
    P t :=
  @Ty.rec P (fun ts => ∀ t ∈ ts, P t) (fun fields => ∀ field ∈ fields, P field.2) (fun field => P field.2) bool int str
    option seq tuple struct map (fun _ h => nomatch h) (fun _ _ hhead htail => List.forall_mem_cons.mpr ⟨hhead, htail⟩)
    (fun _ h => nomatch h) (fun _ _ hhead htail => List.forall_mem_cons.mpr ⟨hhead, htail⟩) (fun _ _ h => h) t

theorem haveTys_iff {ts : List Ty} {vs : List Val} :
    haveTys ts vs = true ↔ List.Forall₂ (fun t v => hasTy t v = true) ts vs := by
  induction ts generalizing vs with
  | nil => cases vs <;> simp [haveTys]
  | cons t ts ih => cases vs <;> simp [haveTys, ih]

theorem fieldsHaveTys_iff {fields : List (String × Ty)} {values : List (String × Val)} :
    fieldsHaveTys fields values = true ↔
      List.Forall₂ (fun field value => field.1 = value.1 ∧ hasTy field.2 value.2 = true) fields values := by
  induction fields generalizing values with
  | nil => cases values <;> simp [fieldsHaveTys]
  | cons field fields ih => cases values <;> simp [fieldsHaveTys, ih, and_assoc]

/-- What holds of all fields of a struct type holds of the values that have these types. -/
theorem forall_of_forall₂ {α β : Type} {R : α → β → Prop} {P : β → Prop} {as : List α} {bs : List β}
    (h : List.Forall₂ R as bs) (hP : ∀ a ∈ as, ∀ b, R a b → P b) : ∀ b ∈ bs, P b := by
  induction h with
  | nil => exact fun _ h => nomatch h
  | cons hr _ ih =>
    refine List.forall_mem_cons.mpr ⟨hP _ List.mem_cons_self _ hr, ih fun a ha => hP a (List.mem_cons_of_mem _ ha)⟩

/-! ## The JSON value of a value -/

def Json.isNull : Json → Bool
  | .null => true
  | _ => false

/-- The fields of a struct that are written, under their names on the wire. -/
def writtenFields (fields : List (String × Json)) : List (String × Json) :=
  (fields.filter fun field => !field.2.isNull).map fun field => (toCamelCase field.1, field.2)

mutual
def wire : Val → Json
  | .bool b => .bool b
  | .int n => .num n
  | .str s => .str s
  | .none => .null
  | .some v => wire v
  | .seq vs => .arr (wireAll vs)
  | .tuple vs => .arr (wireAll vs)
  | .struct fields => .obj (collect (writtenFields (wireValues fields)))
  | .map entries => .obj (wireValues entries)

def wireAll : List Val → List Json
  | [] => []
  | v :: vs => wire v :: wireAll vs

def wireValues : List (String × Val) → List (String × Json)
  | [] => []
  | (key, v) :: entries => (key, wire v) :: wireValues entries
end

mutual
/-- How deep arrays and objects are nested in the text of a value. -/
def depth : Val → Nat
  | .some v => depth v
  | .seq vs => depthAll vs + 1
  | .tuple vs => depthAll vs + 1
  | .struct fields => depthValues fields + 1
  | .map entries => depthValues entries + 1
  | _ => 0

def depthAll : List Val → Nat
  | [] => 0
  | v :: vs => max (depth v) (depthAll vs)

def depthValues : List (String × Val) → Nat
  | [] => 0
  | (_, v) :: entries => max (depth v) (depthValues entries)
end

section Lists

variable {order : List (String × List Token) → List (String × List Token)}

theorem serializeAll_eq (vs : List Val) : serializeAll order vs = vs.map (serialize order) := by
  induction vs with
  | nil => rfl
  | cons v vs ih => simp [serializeAll, ih]

theorem serializeValues_eq (entries : List (String × Val)) :
    serializeValues order entries = entries.map fun entry => (entry.1, serialize order entry.2) := by
  induction entries with
  | nil => rfl
  | cons entry entries ih => simp [serializeValues, ih]

theorem wireAll_eq (vs : List Val) : wireAll vs = vs.map wire := by
  induction vs with
  | nil => rfl
  | cons v vs ih => simp [wireAll, ih]

theorem wireValues_eq (entries : List (String × Val)) :
    wireValues entries = entries.map fun entry => (entry.1, wire entry.2) := by
  induction entries with
  | nil => rfl
  | cons entry entries ih => simp [wireValues, ih]

theorem depthAll_eq (vs : List Val) : depthAll vs = (vs.map depth).foldr max 0 := by
  induction vs with
  | nil => rfl
  | cons v vs ih => simp [depthAll, ih]

theorem depthValues_eq (entries : List (String × Val)) :
    depthValues entries = (entries.map fun entry => depth entry.2).foldr max 0 := by
  induction entries with
  | nil => rfl
  | cons entry entries ih => simp [depthValues, ih]

/-- What has no depth does not count. -/
theorem foldr_max_filter {α : Type} {l : List α} {p : α → Bool} {f : α → Nat} (h : ∀ a ∈ l, p a = false → f a = 0) :
    ((l.filter p).map f).foldr max 0 = (l.map f).foldr max 0 := by
  induction l with
  | nil => rfl
  | cons a l ih =>
    obtain ⟨ha, hl⟩ := List.forall_mem_cons.mp h
    cases hp : p a with
    | false => rw [List.filter_cons_of_neg (by simp [hp]), ih hl, List.map_cons, List.foldr_cons, ha hp, Nat.zero_max]
    | true => rw [List.filter_cons_of_pos hp, List.map_cons, List.foldr_cons, ih hl, List.map_cons, List.foldr_cons]

end Lists

/-- The value is written as `null` when it is read as `null`. -/
theorem serialize_eq_null (order : List (String × List Token) → List (String × List Token)) :
    ∀ v : Val, (serialize order v = [.null] ↔ (wire v).isNull = true) ∧ ((wire v).isNull = true → depth v = 0)
  | .some v => by
    simp only [serialize, wire, depth]
    exact serialize_eq_null order v
  | .bool _ | .int _ | .str _ | .none | .seq _ | .tuple _ | .struct _ | .map _ => by
    simp [serialize, wire, Json.isNull, depth]

/-! ## Separators -/

theorem serializeElements_of_ne {state : State} (h : state ≠ .empty) (values : List (List Token)) :
    serializeElements state values = values.flatMap (.comma :: ·) := by
  induction values generalizing state with
  | nil => rfl
  | cons value values ih =>
    have hadvance : state.advance = .rest := by cases state <;> first | rfl | exact absurd rfl h
    rw [serializeElements, hadvance, ih (by decide : State.rest ≠ .empty)]
    rfl

theorem intercalate_cons {α : Type} (separator value : List α) (values : List (List α)) :
    separator.intercalate (value :: values) = value ++ values.flatMap (separator ++ ·) := by
  induction values generalizing value with
  | nil => simp [List.intercalate]
  | cons next values ih => simp [List.intercalate_cons_cons, ih]

/-- There is a comma between any two elements. -/
theorem serializeElements_empty (values : List (List Token)) :
    serializeElements .empty values = [.comma].intercalate values := by
  cases values with
  | nil => rfl
  | cons value values =>
    rw [serializeElements, State.advance, serializeElements_of_ne (by decide : State.first ≠ .empty), intercalate_cons]
    rfl

theorem serializeEntries_eq (state : State) (entries : List (String × List Token)) :
    serializeEntries state entries =
      serializeElements state (entries.map fun entry => .string entry.1 :: .colon :: entry.2) := by
  induction entries generalizing state with
  | nil => rfl
  | cons entry entries ih => simp [serializeEntries, serializeElements, ih]

/-! ## Arrays and objects -/

section Compound

variable {order : List (String × List Token) → List (String × List Token)}

def Val.piece (order : List (String × List Token) → List (String × List Token)) (v : Val) : Piece :=
  ⟨serialize order v, depth v, wire v⟩

theorem isText_array {vs : List Val} (h : ∀ v ∈ vs, IsText (v.piece order)) :
    IsText ⟨.openBracket :: (serializeElements .empty (serializeAll order vs) ++ [.closeBracket]), depthAll vs + 1,
      .arr (wireAll vs)⟩ := by
  have harr := IsText.arr (vs.map (Val.piece order)) (by simpa using h)
  simp only [List.map_map] at harr
  rwa [serializeElements_empty, serializeAll_eq, depthAll_eq, wireAll_eq]

theorem isText_object {pieces : List (String × Piece)} (h : ∀ piece ∈ pieces, IsText piece.2) :
    IsText ⟨.openBrace :: (serializeEntries .empty (pieces.map fun piece => (piece.1, piece.2.tokens)) ++
      [.closeBrace]),
      (pieces.map (·.2.depth)).foldr max 0 + 1, .obj (collect (pieces.map fun piece => (piece.1, piece.2.value)))⟩ := by
  rw [serializeEntries_eq, serializeElements_empty, List.map_map]
  exact .obj pieces h

/-- Fields that are left out leave no trace in the text. -/
theorem serializeFields_eq (state : State) (fields : List (String × List Token)) :
    serializeFields state fields =
      serializeEntries state ((fields.filter (·.2 ≠ [.null])).map fun field => (toCamelCase field.1, field.2)) := by
  induction fields generalizing state with
  | nil => rfl
  | cons field fields ih =>
    by_cases hnull : field.2 = [.null]
    · simp [serializeFields, hnull, ih]
    · simp [serializeFields, serializeEntries, hnull, ih]

theorem isText_struct {fields : List (String × Val)} (h : ∀ field ∈ fields, IsText (field.2.piece order)) :
    IsText ⟨.openBrace :: (serializeFields .empty (serializeValues order fields) ++ [.closeBrace]),
      depthValues fields + 1,
      .obj (collect (writtenFields (wireValues fields)))⟩ := by
  let written := fields.filter fun field => !(wire field.2).isNull
  let pieces := written.map fun field => (toCamelCase field.1, field.2.piece order)
  have hread : ∀ piece ∈ pieces, IsText piece.2 := by
    intro piece hm
    obtain ⟨field, hf, rfl⟩ := List.mem_map.mp hm
    exact h field (List.mem_filter.mp hf).1
  have hdepth : depthValues fields = (pieces.map (·.2.depth)).foldr max 0 := by
    rw [depthValues_eq, List.map_map]
    refine (foldr_max_filter fun field _ hnull => (serialize_eq_null order field.2).2 ?_).symm
    simpa using hnull
  have htokens : (serializeValues order fields).filter (·.2 ≠ [.null]) =
      written.map fun field => (field.1, serialize order field.2) := by
    rw [serializeValues_eq, List.filter_map]
    congr 1
    refine List.filter_congr fun field _ => ?_
    have := (serialize_eq_null order field.2).1
    by_cases hnull : (wire field.2).isNull = true <;> simp_all
  have hwire : writtenFields (wireValues fields) = pieces.map fun piece => (piece.1, piece.2.value) := by
    rw [writtenFields, wireValues_eq, List.filter_map, List.map_map, List.map_map]
    rfl
  have hobject := isText_object hread
  rw [serializeFields_eq, htokens, List.map_map, hwire, hdepth]
  rwa [List.map_map] at hobject

theorem collect_of_perm {entries entries' : List (String × Json)} (hs : OrdMap.Sorted entries)
    (hp : entries'.Perm entries) : collect entries' = entries := by
  have hnd : (entries'.map Prod.fst).Nodup := by
    rw [(hp.map Prod.fst).nodup_iff, List.Nodup, List.pairwise_map]
    exact hs.imp fun hlt => hlt.ne
  exact (OrdMap.toList_sorted _).ext hs fun ⟨key, value⟩ =>
    OrdMap.mem_toList.trans ((OrdMap.getElem?_ofList hnd).trans hp.mem_iff)

theorem sorted_wireValues {entries : List (String × Val)} (hs : OrdMap.Sorted entries) :
    OrdMap.Sorted (wireValues entries) := by
  rw [wireValues_eq, OrdMap.Sorted, List.pairwise_map]
  exact hs

/-- In whatever order the entries are written, they are read in the order of their keys. -/
theorem isText_map (horder : ∀ entries, (order entries).Perm entries) {entries : List (String × Val)}
    (hs : OrdMap.Sorted entries) (h : ∀ entry ∈ entries, IsText (entry.2.piece order)) :
    IsText ⟨.openBrace :: (serializeEntries .empty (order (serializeValues order entries)) ++ [.closeBrace]),
      depthValues entries + 1, .obj (wireValues entries)⟩ := by
  have hsame : List.Forall₂ (fun written entry => written = (entry.1, serialize order entry.2))
      (serializeValues order entries) entries := by
    rw [serializeValues_eq, List.forall₂_map_left_iff, List.forall₂_same]
    exact fun _ _ => rfl
  obtain ⟨entries', hwritten, hperm⟩ := List.perm_comp_forall₂ (horder _) hsame
  let pieces := entries'.map fun entry => (entry.1, entry.2.piece order)
  have htokens : order (serializeValues order entries) = pieces.map fun piece => (piece.1, piece.2.tokens) := by
    rw [List.map_map, ← List.forall₂_eq_eq_eq, List.forall₂_map_right_iff]
    exact hwritten
  have hread : ∀ piece ∈ pieces, IsText piece.2 := by
    intro piece hm
    obtain ⟨entry, he, rfl⟩ := List.mem_map.mp hm
    exact h entry (hperm.mem_iff.mp he)
  have hdepth : depthValues entries = (pieces.map (·.2.depth)).foldr max 0 := by
    rw [depthValues_eq, List.map_map]
    exact ((hperm.map _).foldr_eq 0).symm
  have hcollect : collect (pieces.map fun piece => (piece.1, piece.2.value)) = wireValues entries := by
    refine collect_of_perm (sorted_wireValues hs) ?_
    rw [List.map_map, wireValues_eq]
    exact hperm.map _
  rw [htokens, ← hcollect, hdepth]
  exact isText_object hread

end Compound

/-- **The text of a value.** It is the text of the JSON value of the value. -/
theorem isText_serialize {order : List (String × List Token) → List (String × List Token)}
    (horder : ∀ entries, (order entries).Perm entries) (t : Ty) : ∀ v, hasTy t v = true → IsText (v.piece order) := by
  induction t with
  | bool =>
    intro v h
    cases v with
    | bool b => exact .bool b
    | _ => cases h
  | int signed bits =>
    intro v h
    cases v with
    | int n => exact .int n
    | _ => cases h
  | str =>
    intro v h
    cases v with
    | str s => exact .str s
    | _ => cases h
  | option t ih =>
    intro v h
    cases v with
    | none => exact .null
    | some v => exact ih v h
    | _ => cases h
  | seq t ih =>
    intro v h
    cases v with
    | seq vs => exact isText_array fun v hv => ih v (List.all_eq_true.mp h v hv)
    | _ => cases h
  | tuple ts ih =>
    intro v h
    cases v with
    | tuple vs => exact isText_array (forall_of_forall₂ (haveTys_iff.mp h) ih)
    | _ => cases h
  | struct fields ih =>
    intro v h
    cases v with
    | struct values =>
      have hfields := fieldsHaveTys_iff.mp (Bool.and_eq_true_iff.mp h).2
      exact isText_struct (forall_of_forall₂ hfields fun field hf value hv => ih field hf value.2 hv.2)
    | _ => cases h
  | map t ih =>
    intro v h
    cases v with
    | map entries =>
      obtain ⟨hs, hall⟩ := Bool.and_eq_true_iff.mp h
      have hsorted : entries.Pairwise fun a b => a.1 < b.1 := of_decide_eq_true hs
      exact isText_map horder hsorted fun entry he => ih entry.2 (List.all_eq_true.mp hall entry he)
    | _ => cases h

end Forte
