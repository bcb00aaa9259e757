/-
When a value survives the wire.

All keys of the text are given their snake_case form when it is read, those of structs and those of maps. So a value
comes back only if that form is the name that the writer started from, and if no object looks like a unit variant. Both
are stated on the value, and together with the depth of the text they are exactly what is needed, of any `serde_json`
with the laws.
-/
import Mathlib
import Fn0.Forte.SerdeJson

namespace Forte

open Std (ExtTreeMap)

/-! ## Names -/

/-- After the first character: no capital letter, and after each underscore a small one. The flag says that an
underscore came just before. -/
def keptChars : Bool → List Char → Bool
  | underscore, [] => !underscore
  | underscore, ch :: rest =>
    if ch = '_' then !underscore && keptChars true rest
    else (if underscore then ch.isLower else !ch.isUpper) && keptChars false rest

/-- The names that come back: those that are the snake_case form of a name. -/
def keptName (name : String) : Bool := decide (name.toList.head? ≠ some '_') && keptChars false name.toList

/-- The map keys that come back. -/
def keptKey (key : String) : Bool := key.toList.all fun ch => !ch.isUpper

theorem toUpper_ne_underscore {ch : Char} (h : ch ≠ '_') : ch.toUpper ≠ '_' := by
  by_cases hl : ch.isLower = true
  · intro heq
    have hup : ch.toUpper.isUpper = true := by simp [Char.isAlpha, hl]
    rw [heq] at hup
    exact absurd hup (by decide)
  · rwa [Char.toUpper_eq_of_not_isLower hl]

theorem toLower_of_isUpper {ch : Char} (h : ch.isUpper = true) : ch.toLower.isLower = true ∧ ch.toLower ≠ '_' := by
  have hlow : ch.toLower.isLower = true := by simp [Char.isAlpha, h]
  refine ⟨hlow, fun heq => ?_⟩
  rw [heq] at hlow
  exact absurd hlow (by decide)

theorem snakeChars_camelChars {underscore : Bool} {chars : List Char} (h : keptChars underscore chars = true)
    (i : Nat) :
    snakeChars (i + 1) (camelChars underscore chars) = (if underscore then ['_'] else []) ++ chars := by
  induction chars generalizing underscore i with
  | nil => cases underscore <;> simp_all [keptChars, camelChars, snakeChars]
  | cons ch rest ih =>
    rw [keptChars] at h
    by_cases hch : ch = '_'
    · subst hch
      simp only [if_true, Bool.and_eq_true, Bool.not_eq_true'] at h
      rw [camelChars, if_pos rfl, ih h.2, h.1]
      rfl
    · simp only [hch, if_false, Bool.and_eq_true] at h
      rw [camelChars, if_neg hch]
      cases underscore with
      | true =>
        have hup : ch.toUpper.isUpper = true := by simp [Char.isAlpha, show ch.isLower = true from h.1]
        have hlow : ch.toUpper.toLower = ch := by
          rw [Char.toLower_toUpper_eq_toLower]
          exact Char.toLower_eq_of_not_isUpper (Char.not_isUpper_of_isLower h.1)
        simp [snakeChars, hup, hlow, ih h.2]
      | false =>
        have hup : ch.isUpper = false := by simpa using h.1
        simp [snakeChars, hup, ih h.2]

/-- A name that meets the condition comes back. -/
theorem toSnakeCase_toCamelCase {name : String} (h : keptName name = true) : toSnakeCase (toCamelCase name) = name := by
  simp only [keptName, Bool.and_eq_true, decide_eq_true_eq] at h
  obtain ⟨hhead, hkept⟩ := h
  rw [toSnakeCase, toCamelCase, String.toList_ofList]
  refine Eq.trans (congrArg String.ofList ?_) String.ofList_toList
  generalize name.toList = chars at hhead hkept
  cases chars with
  | nil => rfl
  | cons ch rest =>
    have hch : ch ≠ '_' := by simpa using hhead
    rw [keptChars, if_neg hch] at hkept
    have hup : ch.isUpper = false := by simp_all
    have hrest : keptChars false rest = true := by simp_all
    simp [camelChars, hch, snakeChars, hup, snakeChars_camelChars hrest]

theorem underscore_notMem_camelChars (capitalize : Bool) (chars : List Char) : '_' ∉ camelChars capitalize chars := by
  induction chars generalizing capitalize with
  | nil => simp [camelChars]
  | cons ch rest ih =>
    rw [camelChars]
    split
    · exact ih true
    next hch =>
      split
      · exact List.not_mem_cons_of_ne_of_not_mem (toUpper_ne_underscore hch).symm (ih false)
      · exact List.not_mem_cons_of_ne_of_not_mem (Ne.symm hch) (ih false)

theorem keptChars_snakeChars {chars : List Char} (h : '_' ∉ chars) (i : Nat) :
    keptChars false (snakeChars (i + 1) chars) = true := by
  induction chars generalizing i with
  | nil => rfl
  | cons ch rest ih =>
    obtain ⟨hch, hrest⟩ := not_or.mp (mt List.mem_cons.mpr h)
    by_cases hup : ch.isUpper = true
    · obtain ⟨hlow, hne⟩ := toLower_of_isUpper hup
      simp [snakeChars, hup, keptChars, hne, hlow, ih hrest]
    · simp [snakeChars, hup, keptChars, Ne.symm hch, ih hrest]

/-- Whatever the name was, what comes back meets the condition. -/
theorem keptName_toSnakeCase_toCamelCase (name : String) : keptName (toSnakeCase (toCamelCase name)) = true := by
  simp only [keptName, toSnakeCase, toCamelCase, String.toList_ofList]
  have hnot := underscore_notMem_camelChars false name.toList
  generalize camelChars false name.toList = chars at hnot
  cases chars with
  | nil => rfl
  | cons ch rest =>
    obtain ⟨hch, hrest⟩ := not_or.mp (mt List.mem_cons.mpr hnot)
    have htail := keptChars_snakeChars hrest 0
    by_cases hup : ch.isUpper = true
    · obtain ⟨hlow, hne⟩ := toLower_of_isUpper hup
      simp [snakeChars, hup, keptChars, hne, htail]
    · simp [snakeChars, hup, keptChars, Ne.symm hch, htail]

theorem snakeChars_of_kept {chars : List Char} (h : ∀ ch ∈ chars, ch.isUpper = false) (i : Nat) :
    snakeChars i chars = chars := by
  induction chars generalizing i with
  | nil => rfl
  | cons ch rest ih =>
    obtain ⟨hch, hrest⟩ := List.forall_mem_cons.mp h
    simp [snakeChars, hch, ih hrest]

theorem toSnakeCase_of_kept {key : String} (h : keptKey key = true) : toSnakeCase key = key := by
  rw [toSnakeCase, snakeChars_of_kept (by simpa [keptKey] using h), String.ofList_toList]

theorem isUpper_snakeChars {chars : List Char} {i : Nat} : ∀ ch ∈ snakeChars i chars, ch.isUpper = false := by
  induction chars generalizing i with
  | nil => exact fun _ h => nomatch h
  | cons ch rest ih =>
    intro c hc
    rw [snakeChars] at hc
    rcases List.mem_append.mp hc with hc | hc
    · by_cases hup : ch.isUpper = true
      · rw [if_pos hup] at hc
        rcases List.mem_append.mp hc with hc | hc
        · split at hc
          · rw [List.mem_singleton.mp hc]
            decide
          · cases hc
        · rw [List.mem_singleton.mp hc, Char.isUpper_toLower_eq_false]
      · rw [if_neg hup] at hc
        rw [List.mem_singleton.mp hc]
        simpa using hup
    · exact ih c hc

theorem keptKey_toSnakeCase (key : String) : keptKey (toSnakeCase key) = true := by
  simp only [keptKey, toSnakeCase, String.toList_ofList, List.all_eq_true, Bool.not_eq_true']
  exact isUpper_snakeChars

/-! ## Reading as lists -/

theorem transformItems_eq (items : List Json) : transformItems items = items.map transformKeysToSnakeCase := by
  induction items with
  | nil => rfl
  | cons item items ih => simp [transformItems, ih]

theorem transformEntries_eq (entries : List (String × Json)) :
    transformEntries entries = entries.map fun entry => (toSnakeCase entry.1, transformKeysToSnakeCase entry.2) := by
  induction entries with
  | nil => rfl
  | cons entry entries ih => simp [transformEntries, ih]

theorem isNull_transformKeysToSnakeCase (value : Json) : (transformKeysToSnakeCase value).isNull = value.isNull := by
  cases value with
  | obj entries =>
    rw [transformKeysToSnakeCase]
    split <;> rfl
  | _ => simp [transformKeysToSnakeCase, Json.isNull]

theorem missingField_eq_some {t : Ty} {v : Val} (h : missingField t = some v) : v = .none := by
  unfold missingField at h
  split at h
  · exact (Option.some.inj h).symm
  · cases h

theorem forall₂_iff_forall {α β : Type} {R S : α → β → Prop} {P : β → Prop} {as : List α} {bs : List β}
    (h : List.Forall₂ R as bs) (hS : ∀ a ∈ as, ∀ b ∈ bs, R a b → (S a b ↔ P b)) :
    List.Forall₂ S as bs ↔ ∀ b ∈ bs, P b := by
  induction h with
  | nil => simp
  | cons hr _ ih =>
    rw [List.forall₂_cons, List.forall_mem_cons, hS _ List.mem_cons_self _ List.mem_cons_self hr,
      ih fun a ha b hb => hS a (List.mem_cons_of_mem _ ha) b (List.mem_cons_of_mem _ hb)]

/-! ## Objects -/

theorem mem_keys_collect {entries : List (String × Json)} {key : String} :
    key ∈ (collect entries).map Prod.fst ↔ key ∈ entries.map Prod.fst := by
  rw [collect, ExtTreeMap.map_fst_toList_eq_keys, ExtTreeMap.mem_keys, ExtTreeMap.mem_ofList, List.contains_iff_mem]

theorem nodup_keys_collect (entries : List (String × Json)) : ((collect entries).map Prod.fst).Nodup := by
  rw [List.Nodup, List.pairwise_map]
  exact (OrdMap.toList_sorted _).imp fun hlt => hlt.ne

/-- With distinct keys nothing is overwritten. -/
theorem collect_perm {entries : List (String × Json)} (h : (entries.map Prod.fst).Nodup) :
    (collect entries).Perm entries := by
  refine (List.perm_ext_iff_of_nodup (nodup_keys_collect _).of_map h.of_map).mpr fun ⟨key, value⟩ => ?_
  exact OrdMap.mem_toList.trans (OrdMap.getElem?_ofList h)

theorem lookup_eq_some (entries : List (String × Json)) (h : (entries.map Prod.fst).Nodup) {key : String}
    {value : Json} :
    entries.lookup key = some value ↔ (key, value) ∈ entries := by
  induction entries with
  | nil => simp
  | cons entry entries ih =>
    obtain ⟨hhead, htail⟩ := List.nodup_cons.mp h
    rw [List.lookup_cons, List.mem_cons]
    by_cases hkey : key = entry.1
    · subst hkey
      have hnot : (entry.1, value) ∉ entries := fun hm => hhead (List.mem_map.mpr ⟨_, hm, rfl⟩)
      simp [hnot, Prod.ext_iff, eq_comm]
    · have hne : (key, value) ≠ entry := fun heq => hkey (congrArg Prod.fst heq)
      rw [show (key == entry.1) = false by simpa using hkey]
      simp [hne, ih htail]

theorem lookup_eq_none {entries : List (String × Json)} {key : String} :
    entries.lookup key = none ↔ key ∉ entries.map Prod.fst := by
  rw [List.lookup_eq_none_iff, List.mem_map]
  exact ⟨fun h ⟨entry, hm, hkey⟩ => absurd hkey.symm (by simpa using h entry hm),
    fun h entry hm => by simpa using fun hkey => h ⟨entry, hm, Eq.symm hkey⟩⟩

theorem unitVariant_of_two_le {entries : List (String × Json)} (h : 2 ≤ entries.length) :
    unitVariant entries = none := by
  unfold unitVariant
  split
  · simp at h
  · rfl

theorem unitVariant_perm {entries entries' : List (String × Json)} (h : entries.Perm entries') :
    unitVariant entries = unitVariant entries' := by
  match entries, h with
  | [], h => rw [h.nil_eq]
  | [entry], h => rw [List.singleton_perm.mp h]
  | first :: second :: rest, h =>
    rw [unitVariant_of_two_le (by simp), unitVariant_of_two_le (by rw [← h.length_eq]; simp)]

/-! ## The condition -/

mutual
/-- The value comes back, unless its text is nested too deeply. -/
def roundTrips : Val → Bool
  | .some .none => false
  | .some v => roundTrips v
  | .seq vs => roundTripsAll vs
  | .tuple vs => roundTripsAll vs
  | .struct fields => fieldsRoundTrip fields && (unitVariant (writtenFields (wireValues fields))).isNone
  | .map entries => entriesRoundTrip entries && (unitVariant (wireValues entries)).isNone
  | _ => true

def roundTripsAll : List Val → Bool
  | [] => true
  | v :: vs => roundTrips v && roundTripsAll vs

/-- The name of a field that is left out does not matter. -/
def fieldsRoundTrip : List (String × Val) → Bool
  | [] => true
  | (_, .none) :: fields => fieldsRoundTrip fields
  | (name, v) :: fields => keptName name && roundTrips v && fieldsRoundTrip fields

def entriesRoundTrip : List (String × Val) → Bool
  | [] => true
  | (key, v) :: entries => keptKey key && roundTrips v && entriesRoundTrip entries
end

theorem roundTripsAll_iff {vs : List Val} : roundTripsAll vs = true ↔ ∀ v ∈ vs, roundTrips v = true := by
  induction vs with
  | nil => simp [roundTripsAll]
  | cons v vs ih => simp [roundTripsAll, ih]

theorem fieldsRoundTrip_iff {fields : List (String × Val)} :
    fieldsRoundTrip fields = true ↔
      ∀ field ∈ fields, field.2 = .none ∨ keptName field.1 = true ∧ roundTrips field.2 = true := by
  induction fields with
  | nil => simp [fieldsRoundTrip]
  | cons field fields ih =>
    obtain ⟨name, v⟩ := field
    cases v <;> simp [fieldsRoundTrip, ih]

theorem entriesRoundTrip_iff {entries : List (String × Val)} :
    entriesRoundTrip entries = true ↔ ∀ entry ∈ entries, keptKey entry.1 = true ∧ roundTrips entry.2 = true := by
  induction entries with
  | nil => simp [entriesRoundTrip]
  | cons entry entries ih => simp [entriesRoundTrip, ih]

theorem roundTrips_some {v : Val} : roundTrips (.some v) = true ↔ v ≠ .none ∧ roundTrips v = true := by
  cases v <;> simp [roundTrips]

/-- Only `None` is written as `null` and comes back. -/
theorem isNull_wire : ∀ {v : Val}, roundTrips v = true → (wire v).isNull = true → v = .none
  | .some v, h, hnull => by
    rw [roundTrips_some] at h
    exact absurd (isNull_wire h.2 hnull) h.1
  | .none, _, _ => rfl
  | .bool _, _, hnull | .int _, _, hnull | .str _, _, hnull | .seq _, _, hnull | .tuple _, _, hnull
  | .struct _, _, hnull | .map _, _, hnull => by cases hnull

/-! ## Structs -/

section Struct

variable {values : List (String × Val)}

/-- The fields that are written, as fields. -/
def written (values : List (String × Val)) : List (String × Val) := values.filter fun value => !(wire value.2).isNull

theorem writtenFields_eq (values : List (String × Val)) :
    writtenFields (wireValues values) = (written values).map fun value => (toCamelCase value.1, wire value.2) := by
  rw [writtenFields, wireValues_eq, List.filter_map, List.map_map]
  rfl

theorem mem_written {value : String × Val} : value ∈ written values ↔
    value ∈ values ∧ (wire value.2).isNull = false := by
  simp [written]

/-- The entries that the fields of a struct are looked up in. -/
def readEntries (values : List (String × Val)) : List (String × Json) :=
  collect (transformEntries (collect (writtenFields (wireValues values))))

/-- A name that is found is one that comes back. -/
theorem keptName_of_mem (values : List (String × Val)) {name : String} (h : name ∈ (readEntries values).map Prod.fst) :
    keptName name = true := by
  rw [readEntries, mem_keys_collect, transformEntries_eq, List.map_map, List.mem_map] at h
  obtain ⟨entry, hm, rfl⟩ := h
  have hkey : entry.1 ∈ (writtenFields (wireValues values)).map Prod.fst :=
    mem_keys_collect.mp (List.mem_map_of_mem hm)
  rw [writtenFields_eq, List.map_map, List.mem_map] at hkey
  obtain ⟨value, -, hv⟩ := hkey
  rw [Function.comp_apply, ← hv]
  exact keptName_toSnakeCase_toCamelCase value.1

variable (hnames : (values.map Prod.fst).Nodup) (hkept : ∀ value ∈ written values, keptName value.1 = true)

include hnames hkept

theorem nodup_writtenFields : ((writtenFields (wireValues values)).map Prod.fst).Nodup := by
  have hnodup : ((written values).map Prod.fst).Nodup := hnames.sublist (List.filter_sublist.map _)
  rw [writtenFields_eq, List.map_map]
  -- the snake_case form tells the wire names apart
  refine List.Nodup.of_map toSnakeCase ?_
  have hback : ((written values).map (Prod.fst ∘ fun value => (toCamelCase value.1, wire value.2))).map toSnakeCase =
      (written values).map Prod.fst := by
    rw [List.map_map]
    exact List.map_congr_left fun value hv => toSnakeCase_toCamelCase (hkept value hv)
  rwa [hback]

theorem readEntries_perm :
    (readEntries values).Perm ((written values).map fun value =>
      (value.1, transformKeysToSnakeCase (wire value.2))) := by
  have hinner := collect_perm (nodup_writtenFields hnames hkept)
  have htransformed : (transformEntries (collect (writtenFields (wireValues values)))).Perm
      ((written values).map fun value => (value.1, transformKeysToSnakeCase (wire value.2))) := by
    rw [transformEntries_eq]
    refine (hinner.map _).trans (List.Perm.of_eq ?_)
    rw [writtenFields_eq, List.map_map]
    refine List.map_congr_left fun value hv => ?_
    simp [toSnakeCase_toCamelCase (hkept value hv)]
  refine (collect_perm ?_).trans htransformed
  rw [(htransformed.map Prod.fst).nodup_iff, List.map_map]
  exact hnames.sublist (List.filter_sublist.map _)

theorem lookup_readEntries {value : String × Val} (hv : value ∈ values) :
    (readEntries values).lookup value.1 =
      if (wire value.2).isNull then none else some (transformKeysToSnakeCase (wire value.2)) := by
  have hperm := readEntries_perm hnames hkept
  split
  next hnull =>
    rw [lookup_eq_none, (hperm.map Prod.fst).mem_iff, List.map_map, List.mem_map]
    rintro ⟨other, ho, heq⟩
    obtain ⟨hother, hnotnull⟩ := mem_written.mp ho
    rw [List.inj_on_of_nodup_map hnames hother hv heq, hnull] at hnotnull
    cases hnotnull
  next hnull =>
    rw [lookup_eq_some (readEntries values) (nodup_keys_collect _), hperm.mem_iff, List.mem_map]
    exact ⟨value, mem_written.mpr ⟨hv, by simpa using hnull⟩, rfl⟩

/-- A field is read as its value exactly if it is `None` or its value comes back. -/
theorem fieldValue_readEntries {serde : SerdeJson} {value : String × Val} (hv : value ∈ values) {field : String × Ty}
    (hname : field.1 = value.1) (hty : hasTy field.2 value.2 = true)
    (ih : serde.fromValue field.2 (transformKeysToSnakeCase (wire value.2)) = some value.2 ↔
      roundTrips value.2 = true) :
    serde.fieldValue (readEntries values) field = some value.2 ↔ value.2 = .none ∨ roundTrips value.2 = true := by
  rw [SerdeJson.fieldValue, hname, lookup_readEntries hnames hkept hv]
  by_cases hnull : (wire value.2).isNull = true
  · rw [if_pos hnull]
    refine ⟨fun hmissing => .inl (missingField_eq_some hmissing), fun hone => ?_⟩
    have hnone : value.2 = .none := hone.elim id fun hr => isNull_wire hr hnull
    rw [hnone] at hty ⊢
    cases hft : field.2 <;> rw [hft] at hty <;> first | rfl | cases hty
  · rw [if_neg hnull, ih]
    refine ⟨.inr, fun hone => hone.elim (fun hnone => ?_) id⟩
    rw [hnone] at hnull
    exact absurd rfl hnull

end Struct

section Laws

variable {serde : SerdeJson} (hserde : serde.Laws)

include hserde

theorem fromValue_struct_iff {fields : List (String × Ty)} {values : List (String × Val)}
    (hty : hasTy (.struct fields) (.struct values) = true)
    (ih : ∀ field ∈ fields, ∀ v, hasTy field.2 v = true →
      (serde.fromValue field.2 (transformKeysToSnakeCase (wire v)) = some v ↔ roundTrips v = true)) :
    serde.fromValue (.struct fields) (transformKeysToSnakeCase (wire (.struct values))) = some (.struct values) ↔
      roundTrips (.struct values) = true := by
  obtain ⟨hnodup, htys⟩ := Bool.and_eq_true_iff.mp hty
  have hfields := fieldsHaveTys_iff.mp htys
  have hnames : (values.map Prod.fst).Nodup := by
    have heq : fields.map Prod.fst = values.map Prod.fst := by
      rw [← List.forall₂_eq_eq_eq, List.forall₂_map_left_iff, List.forall₂_map_right_iff]
      exact hfields.imp fun _ _ h => h.1
    rw [← heq]
    exact of_decide_eq_true hnodup
  -- with names that come back, the fields can be looked at one by one
  have hread : (∀ value ∈ written values, keptName value.1 = true) →
      (serde.fromValue (.struct fields) (.obj (readEntries values)) = some (.struct values) ↔
        ∀ value ∈ values, value.2 = .none ∨ roundTrips value.2 = true) := by
    intro hkept
    rw [hserde.struct]
    refine forall₂_iff_forall hfields fun field hf value hv hfield => ?_
    obtain ⟨hname, hvty⟩ := hfield
    rw [fieldValue_readEntries hnames hkept hv hname hvty (ih field hf value.2 hvty)]
    exact and_iff_right hname
  rw [wire, transformKeysToSnakeCase, roundTrips, Bool.and_eq_true, fieldsRoundTrip_iff, Option.isNone_iff_eq_none]
  constructor
  · intro hsome
    split at hsome
    · rw [hserde.notStruct] at hsome
      cases hsome
    next hvariant =>
      change serde.fromValue (.struct fields) (.obj (readEntries values)) = some (.struct values) at hsome
      have hkept : ∀ value ∈ values, (wire value.2).isNull = false → keptName value.1 = true := by
        refine forall_of_forall₂ ((hserde.struct ..).mp hsome) fun field _ value hread hnull => ?_
        obtain ⟨hname, hvalue⟩ := hread
        refine keptName_of_mem values ?_
        by_contra hnot
        rw [SerdeJson.fieldValue, hname, lookup_eq_none.mpr hnot] at hvalue
        rw [missingField_eq_some hvalue] at hnull
        cases hnull
      replace hkept : ∀ value ∈ written values, keptName value.1 = true := fun value hv =>
        hkept value (mem_written.mp hv).1 (mem_written.mp hv).2
      refine ⟨fun value hv => ?_, ?_⟩
      · rcases (hread hkept).mp hsome value hv with hnone | hr
        · exact .inl hnone
        · by_cases hnull : (wire value.2).isNull = true
          · exact .inl (isNull_wire hr hnull)
          · exact .inr ⟨hkept value (mem_written.mpr ⟨hv, by simpa using hnull⟩), hr⟩
      · rw [← unitVariant_perm (collect_perm (nodup_writtenFields hnames hkept))]
        exact hvariant
  · rintro ⟨hall, hvariant⟩
    have hkept : ∀ value ∈ written values, keptName value.1 = true := by
      intro value hv
      obtain ⟨hmem, hnull⟩ := mem_written.mp hv
      rcases hall value hmem with hnone | ⟨hkept, -⟩
      · rw [hnone] at hnull
        cases hnull
      · exact hkept
    rw [unitVariant_perm (collect_perm (nodup_writtenFields hnames hkept)), hvariant]
    exact (hread hkept).mpr fun value hv => (hall value hv).imp_right (·.2)

/-! ## Maps -/

omit hserde in
theorem transformEntries_of_kept {entries : List (String × Val)} (h : ∀ entry ∈ entries, keptKey entry.1 = true) :
    transformEntries (wireValues entries) = entries.map fun entry =>
      (entry.1, transformKeysToSnakeCase (wire entry.2)) := by
  rw [transformEntries_eq, wireValues_eq, List.map_map]
  exact List.map_congr_left fun entry he => by simp [toSnakeCase_of_kept (h entry he)]

theorem fromValue_map_iff {t : Ty} {entries : List (String × Val)} (hty : hasTy (.map t) (.map entries) = true)
    (ih : ∀ v, hasTy t v = true → (serde.fromValue t (transformKeysToSnakeCase (wire v)) = some v ↔
      roundTrips v = true)) :
    serde.fromValue (.map t) (transformKeysToSnakeCase (wire (.map entries))) = some (.map entries) ↔
      roundTrips (.map entries) = true := by
  obtain ⟨hs, hall⟩ := Bool.and_eq_true_iff.mp hty
  have hsorted : OrdMap.Sorted entries := (of_decide_eq_true hs : entries.Pairwise fun a b => a.1 < b.1)
  have htys := List.all_eq_true.mp hall
  -- with keys that come back, the entries can be looked at one by one
  have hread : (∀ entry ∈ entries, keptKey entry.1 = true) →
      (serde.fromValue (.map t) (.obj (collect (transformEntries (wireValues entries)))) = some (.map entries) ↔
        ∀ entry ∈ entries, roundTrips entry.2 = true) := by
    intro hkept
    have hcollect : collect (transformEntries (wireValues entries)) =
        entries.map fun entry => (entry.1, transformKeysToSnakeCase (wire entry.2)) := by
      rw [transformEntries_of_kept hkept]
      refine collect_of_perm ?_ (List.Perm.refl _)
      rw [OrdMap.Sorted, List.pairwise_map]
      exact hsorted
    rw [hcollect, hserde.map, List.forall₂_map_left_iff, List.forall₂_same]
    exact forall₂_congr fun entry he => (and_iff_right rfl).trans (ih entry.2 (htys entry he))
  rw [wire, transformKeysToSnakeCase, roundTrips, Bool.and_eq_true, entriesRoundTrip_iff, Option.isNone_iff_eq_none]
  constructor
  · intro hsome
    split at hsome
    · rw [hserde.notMap] at hsome
      cases hsome
    next hvariant =>
      refine ⟨?_, hvariant⟩
      have hkept : ∀ entry ∈ entries, keptKey entry.1 = true := by
        refine forall_of_forall₂ ((hserde.map ..).mp hsome) fun read hm entry hentry => ?_
        have hkey := mem_keys_collect.mp (List.mem_map_of_mem hm)
        rw [transformEntries_eq, List.map_map, List.mem_map] at hkey
        obtain ⟨source, -, hsource⟩ := hkey
        rw [← hentry.1, ← hsource]
        exact keptKey_toSnakeCase source.1
      exact fun entry he => ⟨hkept entry he, (hread hkept).mp hsome entry he⟩
  · rintro ⟨hentries, hvariant⟩
    rw [hvariant]
    exact (hread fun entry he => (hentries entry he).1).mpr fun entry he => (hentries entry he).2

/-! ## The round trip -/

omit hserde in
/-- Items that come one for each type. -/
theorem forall₂_zip_map {g : Val → Json} {ts : List Ty} {vs : List Val} :
    (ts.length = (vs.map g).length ∧
      List.Forall₂ (fun pair v => serde.fromValue pair.1 pair.2 = some v) (ts.zip (vs.map g)) vs) ↔
      List.Forall₂ (fun t v => serde.fromValue t (g v) = some v) ts vs := by
  induction ts generalizing vs with
  | nil => cases vs <;> simp
  | cons t ts ih =>
    cases vs with
    | nil => simp
    | cons v vs => simp [← ih, and_left_comm]

theorem fromValue_iff (t : Ty) :
    ∀ v, hasTy t v = true →
      (serde.fromValue t (transformKeysToSnakeCase (wire v)) = some v ↔ roundTrips v = true) := by
  induction t with
  | bool =>
    intro v h
    cases v with
    | bool b => exact iff_of_true (hserde.bool b) rfl
    | _ => cases h
  | int signed bits =>
    intro v h
    cases v with
    | int n => exact iff_of_true ((hserde.int signed bits n).mpr (Bool.and_eq_true_iff.mp h).2) rfl
    | _ => cases h
  | str =>
    intro v h
    cases v with
    | str s => exact iff_of_true (hserde.str s) rfl
    | _ => cases h
  | option t ih =>
    intro v h
    cases v with
    | none => exact iff_of_true (hserde.optionNull t) rfl
    | some v =>
      rw [wire, roundTrips_some, ← ih v h]
      have hnull := isNull_transformKeysToSnakeCase (wire v)
      generalize transformKeysToSnakeCase (wire v) = value at hnull ⊢
      by_cases hn : value.isNull = true
      · cases value with
        | null =>
          rw [hserde.optionNull]
          exact ⟨fun hsome => (by cases hsome), fun h => absurd (hserde.null t v h.2) h.1⟩
        | _ => cases hn
      · have hvalue : value ≠ .null := by
          rintro rfl
          exact hn rfl
        have hne : v ≠ .none := by
          rintro rfl
          exact hn hnull
        rw [hserde.option t value v hvalue, and_iff_right hne]
    | _ => cases h
  | seq t ih =>
    intro v h
    cases v with
    | seq vs =>
      have htys := List.all_eq_true.mp h
      rw [wire, transformKeysToSnakeCase, roundTrips, roundTripsAll_iff, transformItems_eq, wireAll_eq, List.map_map,
        hserde.seq, List.forall₂_map_left_iff, List.forall₂_same]
      exact forall₂_congr fun v hv => ih v (htys v hv)
    | _ => cases h
  | tuple ts ih =>
    intro v h
    cases v with
    | tuple vs =>
      rw [wire, transformKeysToSnakeCase, roundTrips, roundTripsAll_iff, transformItems_eq, wireAll_eq, List.map_map,
        hserde.tuple, forall₂_zip_map]
      exact forall₂_iff_forall (haveTys_iff.mp h) fun t ht v _ hv => ih t ht v hv
    | _ => cases h
  | struct fields ih =>
    intro v h
    cases v with
    | struct values => exact fromValue_struct_iff hserde h ih
    | _ => cases h
  | map t ih =>
    intro v h
    cases v with
    | map entries => exact fromValue_map_iff hserde h ih
    | _ => cases h

/--
**The round trip.** A value comes back from the wire exactly if its text is not nested deeper than the parser goes,
every field that is written has a name that survives both conversions, no map key has a capital letter, no object is a
single string under `t`, and no `Some` holds what is written as `null`.
-/
theorem fromSlice_toVec_iff {order : List (String × List Token) → List (String × List Token)}
    (horder : ∀ entries, (order entries).Perm entries) {t : Ty} {v : Val} (h : hasTy t v = true) :
    fromSlice serde t (toVec order v) = some v ↔ depth v < remainingDepth ∧ roundTrips v = true := by
  have hparse : serde.parse (toVec order v) = if depth v < remainingDepth then some (wire v) else none :=
    hserde.parse (v.piece order) (isText_serialize horder t v h)
  rw [fromSlice, hparse]
  split
  next hdepth => rw [Option.bind_some, fromValue_iff hserde t v h, and_iff_right hdepth]
  next hdepth => simp [hdepth]

end Laws

def profileTy : Ty := .struct [("user_name", .str), ("note", .option .str), ("tag_counts", .map (.seq (.int true 64)))]

def profile : Val :=
  .struct [("user_name", .str "ada"), ("note", .none),
    ("tag_counts", .map [("a_1", .seq [.int 1, .int (-2)]), ("b", .seq [])])]

/-- A value that comes back, from a text whose map entries are written in reverse. -/
theorem profile_comes_back : fromSlice serdeJson profileTy (toVec List.reverse profile) = some profile :=
  (fromSlice_toVec_iff serdeJson_laws List.reverse_perm (by decide +kernel)).mpr ⟨by decide +kernel, by decide +kernel⟩

/-- A digit after an underscore takes the field away, and a map of one string under `t` is read as a string. -/
theorem wire_loses_values :
    (hasTy (.struct [("line_1", .int false 8)]) (.struct [("line_1", .int 5)]) = true ∧
      fromSlice serdeJson (.struct [("line_1", .int false 8)]) (toVec id (.struct [("line_1", .int 5)])) = none) ∧
    (hasTy (.map .str) (.map [("t", .str "x")]) = true ∧
      fromSlice serdeJson (.map .str) (toVec id (.map [("t", .str "x")])) = none) := by
  decide +kernel

end Forte
