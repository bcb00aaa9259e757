/-
Fields taken from a line (signy/src/logql/pipeline.rs): the `json` stage, and how what a parser stage has taken joins
the fields of the row.

A name that is taken gets the end `_extracted`, and a number after that when the end is taken too. The search for a free
number is a loop that stops at the greatest `usize`; here it has fuel, and a run without enough of it is `none`. A JSON
value is what the JSON parser returned, with a number as its text.
-/
import Fn0.Lib.MapTotal
import Fn0.Lib.Text
import Fn0.Signy.LogQuery

namespace Signy

open Std (ExtTreeMap ExtTreeSet)
open OrdMap (getElem?_insert getElem?_insert_self erase_insert_self erase_of_none toList_perm_erase)

/-! ## Names -/

/-- A `usize`. -/
abbrev Usize : Type := Fin 18446744073709551616

instance Usize.neZero : NeZero 18446744073709551616 := ⟨by decide⟩

/-- `saturating_add(1)` -/
def Usize.saturatingSucc (n : Usize) : Usize := if h : n.val + 1 < 18446744073709551616 then ⟨n.val + 1, h⟩ else n

/-- `usize::from_str`: an optional plus sign and digits. -/
def parseUsize (text : Text) : Option Usize :=
  let digits := match text with
    | '+' :: rest => rest
    | _ => text
  if digits ≠ [] ∧ Text.Digits digits then
    if h : Text.value digits < 18446744073709551616 then some ⟨Text.value digits, h⟩ else none
  else none

/-- What stands before and after the last occurrence of a text. -/
def rsplitOnce (pattern : Text) : Text → Option (Text × Text)
  | [] => none
  | c :: t =>
    match rsplitOnce pattern t with
    | some (before, after) => some (c :: before, after)
    | none => if pattern <+: c :: t then some ([], (c :: t).drop pattern.length) else none

def extractedBase (name : String) : String := name ++ "_extracted"

def numbered (base : String) (suffix : Usize) : String := base ++ "_" ++ toString suffix.val

/-- For each base name the number to try next. -/
abbrev Suffixes : Type := ExtTreeMap String Usize compare

/-- The base name and the number of a name that was numbered before. -/
def numberedParts (name : String) : Option (String × Usize) :=
  (rsplitOnce "_extracted_".toList name.toList).bind fun (base, suffix) =>
    (parseUsize suffix).map fun suffix => (extractedBase (String.ofList base), suffix)

def observeExtractedName (nextSuffix : Suffixes) (name : String) : Suffixes :=
  match numberedParts name with
  | some (base, suffix) =>
    let next := max suffix.saturatingSucc 2
    nextSuffix.insert base (nextSuffix[base]?.elim next fun current => max current next)
  | none =>
    if "_extracted".toList <:+ name.toList then nextSuffix.insert name (nextSuffix.getD name 2) else nextSuffix

/-! ## Joining fields -/

/-- The fields of a row and the numbers to try next. -/
structure Extracted where
  fields : Labels
  nextSuffix : Suffixes

/-- The loop over candidates. -/
def chooseName (fields : Labels) (base : String) : Nat → String → Usize → Option (String × Usize)
  | 0, _, _ => none
  | fuel + 1, candidate, suffix =>
    if candidate ∈ fields then chooseName fields base fuel (numbered base suffix) suffix.saturatingSucc
    else some (candidate, suffix)

def insertExtractedWithCounter (fuel : Nat) (s : Extracted) (name value : String) : Option Extracted :=
  if name ∉ s.fields then some ⟨s.fields.insert name value, observeExtractedName s.nextSuffix name⟩
  else
    let base := extractedBase name
    (chooseName s.fields base fuel base (s.nextSuffix.getD base 2)).map fun (candidate, suffix) =>
      ⟨s.fields.insert candidate value, s.nextSuffix.insert base suffix⟩

/-- One insertion after the other. -/
def insertAll (fuel : Nat) (s : Extracted) (pairs : List (String × String)) : Option Extracted :=
  pairs.foldlM (fun s pair => insertExtractedWithCounter fuel s pair.1 pair.2) s

/-- What is merged: a name that structured metadata has is left out. -/
def unshadowed (shadowedByMetadata : ExtTreeSet String compare) (extracted : Labels) : List (String × String) :=
  extracted.toList.filter fun pair => pair.1 ∉ shadowedByMetadata

def mergeExtracted (fuel : Nat) (s : Extracted) (shadowedByMetadata : ExtTreeSet String compare) (extracted : Labels) :
    Option Extracted :=
  insertAll fuel s (unshadowed shadowedByMetadata extracted)

/-! ## JSON -/

inductive Value
  | null
  | bool (value : Bool)
  | number (text : String)
  | string (value : String)
  | array (items : List Value)
  | object (entries : List (String × Value))

def sanitizeFieldName (name : String) : String :=
  let body := name.toList.map fun c => if c.isAlphanum ∨ c = '_' then c else '_'
  match name.toList with
  | [] => "_"
  | c :: _ => String.ofList (if c.isDigit then '_' :: body else body)

def joinPath (path name : String) : String := if path = "" then name else path ++ "_" ++ name

mutual

/-- The insertions that flattening a value makes, in their order. -/
def flattenValue (path : String) : Value → List (String × String)
  | .string value => [(path, value)]
  | .bool value => [(path, toString value)]
  | .number text => [(path, text)]
  | .object nested => ((flattenEntries path nested).insertionSort fun a b => a.1 ≤ b.1).flatMap (·.2)
  | .array items => flattenArray path 0 items
  | .null => [(path, "")]

/-- The insertions for the items from an index on. -/
def flattenArray (path : String) (index : Nat) : List Value → List (String × String)
  | [] => []
  | value :: items => flattenValue (joinPath path (toString index)) value ++ flattenArray path (index + 1) items

/-- The insertions for each entry of an object, with its name. -/
def flattenEntries (path : String) : List (String × Value) → List (String × List (String × String))
  | [] => []
  | (name, value) :: entries =>
    (name, flattenValue (joinPath path (sanitizeFieldName name)) value) :: flattenEntries path entries

end

inductive ExtractError
  | parse
deriving DecidableEq

/-- The fields of a line. A bare scalar has none and is an error. -/
def extractJson (parse : String → Option Value) (fuel : Nat) (line : String) : Option (Except ExtractError Labels) :=
  match parse line with
  | some (.object entries) => (insertAll fuel ⟨∅, ∅⟩ (flattenValue "" (.object entries))).map fun s => .ok s.fields
  | some (.array items) => (insertAll fuel ⟨∅, ∅⟩ (flattenValue "" (.array items))).map fun s => .ok s.fields
  | _ => some (.error .parse)

/-! ## The search for a name -/

theorem Usize.saturatingSucc_le {n m : Usize} (h : n < m) : n.saturatingSucc ≤ m := by
  have hlt : n.val < m.val := h
  rw [Usize.saturatingSucc]
  split
  · exact hlt
  · exact h.le

theorem Usize.le_saturatingSucc (n : Usize) : n ≤ n.saturatingSucc := by
  rw [Usize.saturatingSucc]
  split
  · exact Nat.le_succ n.val
  · exact le_rfl

theorem Usize.val_saturatingSucc_of_lt {n m : Usize} (h : n < m) : n.saturatingSucc.val = n.val + 1 := by
  have hlt : n.val < m.val := h
  rw [Usize.saturatingSucc, dif_pos (by omega)]

section Search

variable {fields : Labels} {base candidate : String} {suffix : Usize}

theorem chooseName_fresh {fuel : Nat} {r : String × Usize} (h : chooseName fields base fuel candidate suffix = some r) :
    r.1 ∉ fields := by
  induction fuel generalizing candidate suffix with
  | zero => cases h
  | succ fuel ih =>
    rw [chooseName] at h
    split at h
    · exact ih h
    next hfree =>
      cases h
      exact hfree

theorem chooseName_mono {fuel more : Nat} {r : String × Usize} (hle : fuel ≤ more)
    (h : chooseName fields base fuel candidate suffix = some r) :
    chooseName fields base more candidate suffix = some r := by
  induction fuel generalizing candidate suffix more with
  | zero => cases h
  | succ fuel ih =>
    obtain ⟨more, rfl⟩ := Nat.exists_eq_succ_of_ne_zero (by omega : more ≠ 0)
    rw [chooseName] at h ⊢
    split at h
    next htaken =>
      rw [if_pos htaken]
      exact ih (by omega) h
    next hfree => rw [if_neg hfree, h]

/-- A free number from the counter on is found. -/
theorem chooseName_of_free (candidate : String) {n : Usize} (hle : suffix ≤ n) (hfree : numbered base n ∉ fields) :
    ∃ fuel r, chooseName fields base fuel candidate suffix = some r := by
  -- Each round that goes on takes the counter one step towards the free number.
  induction hgap : n.val - suffix.val generalizing candidate suffix with
  | zero =>
    obtain rfl : suffix = n := Fin.ext (le_antisymm hle (Nat.sub_eq_zero_iff_le.mp hgap))
    by_cases hc : candidate ∈ fields
    · exact ⟨2, _, by rw [chooseName, if_pos hc, chooseName, if_neg hfree]⟩
    · exact ⟨1, _, by rw [chooseName, if_neg hc]⟩
  | succ gap ih =>
    have hlt : suffix < n := by
      rw [Fin.lt_def]
      omega
    have hval := Usize.val_saturatingSucc_of_lt hlt
    obtain ⟨fuel, r, hr⟩ := ih (numbered base suffix) (Usize.saturatingSucc_le hlt) (by omega)
    by_cases hc : candidate ∈ fields
    · exact ⟨fuel + 1, r, by rw [chooseName, if_pos hc, hr]⟩
    · exact ⟨1, _, by rw [chooseName, if_neg hc]⟩

/-- Without a free number the loop goes on for ever: the counter stays at the greatest number. -/
theorem chooseName_eq_none (hc : candidate ∈ fields) (h : ∀ n, suffix ≤ n → numbered base n ∈ fields) (fuel : Nat) :
    chooseName fields base fuel candidate suffix = none := by
  induction fuel generalizing candidate suffix with
  | zero => rfl
  | succ fuel ih =>
    rw [chooseName, if_pos hc]
    exact ih (h suffix le_rfl) fun n hn => h n (suffix.le_saturatingSucc.trans hn)

end Search

/-- The name, its end or one of the numbers from the counter on is free. -/
def Room (s : Extracted) (name : String) : Prop :=
  name ∉ s.fields ∨ extractedBase name ∉ s.fields ∨
    ∃ n, s.nextSuffix.getD (extractedBase name) 2 ≤ n ∧ numbered (extractedBase name) n ∉ s.fields

theorem insertExtractedWithCounter_fresh {fuel : Nat} {s s' : Extracted} {name value : String}
    (h : insertExtractedWithCounter fuel s name value = some s') :
    ∃ key, key ∉ s.fields ∧ s'.fields = s.fields.insert key value := by
  rw [insertExtractedWithCounter] at h
  split at h
  next hfree =>
    cases h
    exact ⟨name, hfree, rfl⟩
  next =>
    obtain ⟨r, hr, heq⟩ := Option.map_eq_some_iff.mp h
    cases heq
    exact ⟨r.1, chooseName_fresh hr, rfl⟩

theorem insertExtractedWithCounter_mono {fuel more : Nat} {s s' : Extracted} {name value : String} (hle : fuel ≤ more)
    (h : insertExtractedWithCounter fuel s name value = some s') :
    insertExtractedWithCounter more s name value = some s' := by
  rw [insertExtractedWithCounter] at h ⊢
  split at h
  next hfree => rw [if_pos hfree, h]
  next htaken =>
    rw [if_neg htaken]
    obtain ⟨r, hr, heq⟩ := Option.map_eq_some_iff.mp h
    exact Option.map_eq_some_iff.mpr ⟨r, chooseName_mono hle hr, heq⟩

/-- An insertion ends exactly when there is room. -/
theorem insertExtractedWithCounter_ends (s : Extracted) (name value : String) :
    (∃ fuel s', insertExtractedWithCounter fuel s name value = some s') ↔ Room s name := by
  by_cases hname : name ∉ s.fields
  · exact iff_of_true ⟨0, _, if_pos hname⟩ (.inl hname)
  · constructor
    · rintro ⟨fuel, s', h⟩
      rw [insertExtractedWithCounter, if_neg hname] at h
      obtain ⟨r, hr, -⟩ := Option.map_eq_some_iff.mp h
      by_contra hroom
      simp only [Room, not_or, not_exists, not_and, not_not] at hroom
      rw [chooseName_eq_none hroom.2.1 hroom.2.2] at hr
      cases hr
    · intro hroom
      have hchoose : ∃ fuel r, chooseName s.fields (extractedBase name) fuel (extractedBase name)
          (s.nextSuffix.getD (extractedBase name) 2) = some r := by
        rcases hroom with hfree | hfree | ⟨n, hle, hfree⟩
        · exact absurd hfree hname
        · exact ⟨1, _, by rw [chooseName, if_neg hfree]⟩
        · exact chooseName_of_free _ hle hfree
      obtain ⟨fuel, r, hr⟩ := hchoose
      refine ⟨fuel, ⟨s.fields.insert r.1 value, s.nextSuffix.insert (extractedBase name) r.2⟩, ?_⟩
      rw [insertExtractedWithCounter, if_neg hname]
      exact Option.map_eq_some_iff.mpr ⟨r, hr, rfl⟩

/-- The fields of before are there as they were, and the new values are there besides. -/
structure Grown (fields : Labels) (values : List String) (grown : Labels) : Prop where
  kept : ∀ (name value : String), fields[name]? = some value → grown[name]? = some value
  added : (grown.toList.map Prod.snd).Perm (fields.toList.map Prod.snd ++ values)

theorem Grown.refl (fields : Labels) : Grown fields [] fields := ⟨fun _ _ h => h, by simp⟩

theorem Grown.insert {fields grown : Labels} {key value : String} {values : List String} (hkey : key ∉ fields)
    (h : Grown (fields.insert key value) values grown) : Grown fields (value :: values) grown := by
  have hnone : fields[key]? = none := getElem?_neg fields key hkey
  have hlist : (fields.insert key value).toList.Perm ((key, value) :: fields.toList) := by
    have hperm := toList_perm_erase (getElem?_insert_self fields key value)
    rwa [erase_insert_self, erase_of_none hnone] at hperm
  refine ⟨fun name old hold => h.kept name old ?_, h.added.trans ?_⟩
  · rw [getElem?_insert, if_neg, hold]
    rintro rfl
    rw [hnone] at hold
    cases hold
  · refine ((hlist.map Prod.snd).append_right values).trans ?_
    exact List.perm_middle.symm

theorem insertAll_grown {fuel : Nat} {s s' : Extracted} {pairs : List (String × String)}
    (h : insertAll fuel s pairs = some s') : Grown s.fields (pairs.map Prod.snd) s'.fields := by
  induction pairs generalizing s with
  | nil =>
    cases h
    exact .refl _
  | cons pair pairs ih =>
    rw [insertAll, List.foldlM_cons] at h
    obtain ⟨next, hnext, h⟩ := Option.bind_eq_some_iff.mp h
    obtain ⟨key, hkey, hfields⟩ := insertExtractedWithCounter_fresh hnext
    exact .insert hkey (hfields ▸ ih h)

theorem insertAll_mono {fuel more : Nat} {s s' : Extracted} {pairs : List (String × String)} (hle : fuel ≤ more)
    (h : insertAll fuel s pairs = some s') : insertAll more s pairs = some s' := by
  induction pairs generalizing s with
  | nil => exact h
  | cons pair pairs ih =>
    rw [insertAll, List.foldlM_cons] at h ⊢
    obtain ⟨next, hnext, h⟩ := Option.bind_eq_some_iff.mp h
    exact Option.bind_eq_some_iff.mpr ⟨next, insertExtractedWithCounter_mono hle hnext, ih h⟩

/-! ## Crowded names

A number that a field bears is not tried again: the counter of its base is past it. So the search fails only at the end
of the numbers. -/

def Usize.greatest : Usize := ⟨18446744073709551615, by decide⟩

theorem Usize.le_greatest (n : Usize) : n ≤ Usize.greatest := Nat.le_of_lt_succ n.isLt

theorem Usize.eq_greatest_of_saturatingSucc_le {n : Usize} (h : n.saturatingSucc ≤ n) : n = Usize.greatest := by
  rw [Usize.saturatingSucc] at h
  split at h
  · exact absurd h (not_le_of_gt (Nat.lt_succ_self n.val))
  next hlast =>
    have := n.isLt
    exact Fin.ext (show n.val = 18446744073709551615 by omega)

theorem Usize.val_saturatingSucc_le (n : Usize) : n.saturatingSucc.val ≤ n.val + 1 := by
  rw [Usize.saturatingSucc]
  split
  · exact le_rfl
  · exact Nat.le_succ _

theorem rsplitOnce_spec {pattern t before after : Text} (h : rsplitOnce pattern t = some (before, after)) :
    t = before ++ pattern ++ after := by
  induction t generalizing before with
  | nil => cases h
  | cons c t ih =>
    rw [rsplitOnce] at h
    cases hrest : rsplitOnce pattern t with
    | some found =>
      rw [hrest] at h
      cases h
      rw [ih hrest]
      rfl
    | none =>
      rw [hrest] at h
      obtain ⟨⟨rest, hprefix⟩, heq⟩ := Option.ite_none_right_eq_some.mp h
      cases heq
      rw [← hprefix, List.drop_left, List.nil_append]

theorem rsplitOnce_append {pattern t before after : Text} (front : Text)
    (h : rsplitOnce pattern t = some (before, after)) :
    rsplitOnce pattern (front ++ t) = some (front ++ before, after) := by
  induction front with
  | nil => exact h
  | cons c front ih => rw [List.cons_append, rsplitOnce, ih]; rfl

theorem rsplitOnce_none {c : Char} {pattern t : Text} (h : c ∉ t) : rsplitOnce (c :: pattern) t = none := by
  induction t with
  | nil => rfl
  | cons d t ih =>
    rw [List.mem_cons, not_or] at h
    rw [rsplitOnce, ih h.2]
    exact if_neg fun hprefix => h.1 (List.cons_prefix_cons.mp hprefix).1

theorem rsplitOnce_digits {digits : Text} (hdigits : Text.Digits digits) :
    rsplitOnce "_extracted_".toList ("_extracted_".toList ++ digits) = some ([], digits) := by
  have hnone : rsplitOnce "_extracted_".toList digits = none :=
    rsplitOnce_none fun h => absurd (hdigits '_' h) (by decide)
  have hlast : rsplitOnce "_extracted_".toList ('_' :: digits) = none := by
    rw [rsplitOnce, hnone]
    refine if_neg fun hprefix => ?_
    obtain ⟨rest, hrest⟩ := (List.cons_prefix_cons.mp hprefix).2
    exact absurd (hdigits 'e' (hrest ▸ List.mem_cons_self)) (by decide)
  have hinner : rsplitOnce "_extracted_".toList ("extracted_".toList ++ digits) = none := by
    have hstep {c : Char} {t : Text} (hc : c ≠ '_') (ht : rsplitOnce "_extracted_".toList t = none) :
        rsplitOnce "_extracted_".toList (c :: t) = none := by
      rw [rsplitOnce, ht]
      exact if_neg fun hprefix => hc (List.cons_prefix_cons.mp hprefix).1.symm
    exact hstep (by decide) (hstep (by decide) (hstep (by decide)
      (hstep (by decide) (hstep (by decide) (hstep (by decide)
      (hstep (by decide) (hstep (by decide) (hstep (by decide) hlast))))))))
  have hcons : "_extracted_".toList ++ digits = '_' :: ("extracted_".toList ++ digits) := rfl
  rw [hcons, rsplitOnce, hinner, ← hcons]
  exact if_pos (List.prefix_append _ _)

theorem parseUsize_digits {text : Text} (hne : text ≠ []) (hdigits : Text.Digits text)
    (hlt : Text.value text < 18446744073709551616) : parseUsize text = some ⟨Text.value text, hlt⟩ := by
  delta parseUsize
  dsimp only
  split
  next rest => exact absurd (hdigits '+' List.mem_cons_self) (by decide)
  next => rw [if_pos ⟨hne, hdigits⟩, dif_pos hlt]

theorem parseUsize_toString (n : Usize) : parseUsize (toString n.val).toList = some n := by
  have htext : (toString n.val).toList = Nat.toDigits 10 n.val := Nat.toList_repr
  have hvalue : Text.value (Nat.toDigits 10 n.val) = n.val := Nat.ofDigitChars_ten_toDigits
  have hdigits : Text.Digits (Nat.toDigits 10 n.val) := fun c hc => Nat.isDigit_of_mem_toDigits (by decide)
    (by decide) hc
  rw [htext, parseUsize_digits Nat.toDigits_ne_nil hdigits (hvalue.trans_lt n.isLt)]
  exact congrArg some (Fin.ext hvalue)

theorem parseUsize_of_getLast {text : Text} {c : Char} (h : text.getLast? = some c) (hc : c.isDigit = false) :
    parseUsize text = none := by
  have hmem : ∀ rest : Text, rest <:+ text → rest ≠ [] → ¬ Text.Digits rest := by
    rintro rest ⟨front, rfl⟩ hne hdigits
    rw [List.getLast?_append_of_ne_nil _ hne] at h
    rw [hdigits c (List.mem_of_getLast? h)] at hc
    cases hc
  delta parseUsize
  dsimp only
  split
  next rest => exact if_neg fun hrest => hmem rest (List.suffix_cons _ _) hrest.1 hrest.2
  next => exact if_neg fun hrest => hmem text List.suffix_rfl hrest.1 hrest.2

theorem numberedParts_numbered (name : String) (n : Usize) :
    numberedParts (numbered (extractedBase name) n) = some (extractedBase name, n) := by
  have hdigits : Text.Digits (toString n.val).toList := by
    rw [show (toString n.val).toList = Nat.toDigits 10 n.val from Nat.toList_repr]
    exact fun c hc => Nat.isDigit_of_mem_toDigits (by decide) (by decide) hc
  have htext : (numbered (extractedBase name) n).toList
      = name.toList ++ ("_extracted_".toList ++ (toString n.val).toList) := by
    simp [numbered, extractedBase]
  rw [numberedParts, htext, rsplitOnce_append _ (rsplitOnce_digits hdigits), List.append_nil, Option.bind_some]
  simp only [parseUsize_toString, Option.map_some, String.ofList_toList]

/-- The end of a name is not a number. -/
theorem numberedParts_extractedBase (name : String) : numberedParts (extractedBase name) = none := by
  rw [numberedParts, Option.bind_eq_none_iff]
  rintro ⟨before, after⟩ hsplit
  have htext := rsplitOnce_spec hsplit
  rw [extractedBase, String.toList_append] at htext
  refine Option.map_eq_none_iff.mpr ?_
  rcases List.eq_nil_or_concat after with rfl | ⟨front, c, rfl⟩
  · rfl
  · have hlast := congrArg List.getLast? htext
    rw [List.concat_eq_append, ← List.append_assoc, List.getLast?_concat] at hlast
    refine parseUsize_of_getLast (c := 'd') ?_ (by decide)
    rw [List.concat_eq_append, List.getLast?_concat, ← hlast, List.getLast?_append_of_ne_nil _ (by decide)]
    rfl

/-- A name that gets no other one: its end and the greatest number are taken too. -/
def Crowded (fields : Labels) (name : String) : Prop :=
  name ∈ fields ∧ extractedBase name ∈ fields ∧ numbered (extractedBase name) Usize.greatest ∈ fields

/-- The number to try next is past every number that a field bears. -/
def Counted (fields : Labels) (nextSuffix : Suffixes) : Prop :=
  ∀ name ∈ fields, ∀ base n, numberedParts name = some (base, n) → n.saturatingSucc ≤ nextSuffix.getD base 2

theorem Counted.greatest {fields : Labels} {nextSuffix : Suffixes} (h : Counted fields nextSuffix)
    {name : String} {n : Usize}
    (hname : numbered (extractedBase name) n ∈ fields) (hle : nextSuffix.getD (extractedBase name) 2 ≤ n) :
    n = Usize.greatest :=
  Usize.eq_greatest_of_saturatingSucc_le ((h _ hname _ _ (numberedParts_numbered name n)).trans hle)

theorem room_iff {s : Extracted} (h : Counted s.fields s.nextSuffix) (name : String) :
    Room s name ↔ ¬ Crowded s.fields name := by
  constructor
  · rintro (hfree | hfree | ⟨n, hle, hfree⟩) ⟨hname, hbase, hlast⟩
    · exact hfree hname
    · exact hfree hbase
    · have hcounter := h _ hlast _ _ (numberedParts_numbered name _)
      have hn : n = Usize.greatest := le_antisymm n.le_greatest ((Usize.le_saturatingSucc _).trans (hcounter.trans hle))
      exact hfree (hn ▸ hlast)
  · intro hcrowded
    by_contra hroom
    simp only [Room, not_or, not_exists, not_and, not_not] at hroom
    exact hcrowded ⟨hroom.1, hroom.2.1, hroom.2.2 _ (Usize.le_greatest _)⟩

/-- What taking a name does to the numbers, with the key that it got. -/
structure Takes (before after : Suffixes) (name key : String) : Prop where
  grows : ∀ base, before.getD base 2 ≤ after.getD base 2
  covers : ∀ base n, numberedParts key = some (base, n) → n.saturatingSucc ≤ after.getD base 2
  bounded : ∀ base, (after.getD base 2).val ≤ (before.getD base 2).val + 1 ∨ after.getD base 2 ≤ 2 ∨
    ∃ n, numberedParts name = some (base, n) ∧ after.getD base 2 ≤ n.saturatingSucc

theorem Counted.takes {fields : Labels} {before after : Suffixes} {name key value : String} (h : Counted fields before)
    (ht : Takes before after name key) : Counted (fields.insert key value) after := by
  intro field hfield base n hparts
  rcases Std.ExtTreeMap.mem_insert.mp hfield with heq | hmem
  · obtain rfl := Std.LawfulEqCmp.eq_of_compare heq
    exact ht.covers base n hparts
  · exact (h field hmem base n hparts).trans (ht.grows base)

/-- A look at a name moves the number of its base past it, and no other. -/
theorem getD_observe (nextSuffix : Suffixes) (name base : String) :
    (∀ n, numberedParts name ≠ some (base, n)) ∧ (observeExtractedName nextSuffix name).getD base 2 =
      nextSuffix.getD base 2 ∨
      ∃ n, numberedParts name = some (base, n) ∧ (observeExtractedName nextSuffix name).getD base 2
        = nextSuffix[base]?.elim (max n.saturatingSucc 2) fun current => max current (max n.saturatingSucc 2) := by
  rw [observeExtractedName]
  split
  next b n hparts =>
    rw [Std.ExtTreeMap.getD_insert, hparts]
    split
    next heq =>
      obtain rfl := Std.LawfulEqCmp.eq_of_compare heq
      exact .inr ⟨n, rfl, rfl⟩
    next hne =>
      refine .inl ⟨fun m hm => hne ?_, rfl⟩
      cases hm
      exact Std.ReflCmp.compare_self
  next hparts =>
    refine .inl ⟨fun m hm => (by rw [hparts] at hm; cases hm), ?_⟩
    split
    · rw [Std.ExtTreeMap.getD_insert]
      split
      next heq => rw [Std.LawfulEqCmp.eq_of_compare heq]
      · rfl
    · rfl

theorem observe_takes (nextSuffix : Suffixes) (name : String) :
    Takes nextSuffix (observeExtractedName nextSuffix name) name name := by
  refine ⟨fun base => ?_, fun base n hparts => ?_, fun base => ?_⟩
  · rcases getD_observe nextSuffix name base with ⟨-, heq⟩ | ⟨n, -, heq⟩
    · exact heq.ge
    · rw [heq, Std.ExtTreeMap.getD_eq_getD_getElem?]
      cases nextSuffix[base]? with
      | none => exact le_max_right _ _
      | some current => exact le_max_left _ _
  · rcases getD_observe nextSuffix name base with ⟨hne, -⟩ | ⟨m, hm, heq⟩
    · exact absurd hparts (hne n)
    · rw [hparts] at hm
      cases hm
      rw [heq]
      cases nextSuffix[base]? with
      | none => exact le_max_left _ _
      | some current => exact (le_max_left _ _).trans (le_max_right _ _)
  · rcases getD_observe nextSuffix name base with ⟨-, heq⟩ | ⟨n, hn, heq⟩
    · rw [heq]
      exact .inl (Nat.le_succ _)
    · rw [heq, Std.ExtTreeMap.getD_eq_getD_getElem?]
      have hnext : max n.saturatingSucc 2 ≤ 2 ∨ max n.saturatingSucc 2 ≤ n.saturatingSucc :=
        (le_total n.saturatingSucc 2).imp (fun h => max_le h le_rfl) fun h => max_le le_rfl h
      cases nextSuffix[base]? with
      | none => exact .inr (hnext.imp id fun h => ⟨n, hn, h⟩)
      | some current =>
        rcases le_total (max n.saturatingSucc 2) current with hle | hle
        · exact .inl (show (max current (max n.saturatingSucc 2)).val ≤ _ by rw [max_eq_left hle]; exact Nat.le_succ _)
        · exact .inr (show max current (max n.saturatingSucc 2) ≤ 2 ∨ _ by
            rw [Option.elim_some, max_eq_right hle]
            exact hnext.imp id fun h => ⟨n, hn, h⟩)

/-- A second look at the key that was taken. -/
theorem Takes.observe {before after : Suffixes} {name key : String} (h : Takes before after name key) :
    Takes before (observeExtractedName after key) name key := by
  have hlook := observe_takes after key
  refine ⟨fun base => (h.grows base).trans (hlook.grows base), hlook.covers, fun base => ?_⟩
  rcases getD_observe after key base with ⟨-, heq⟩ | ⟨n, hn, heq⟩
  · rw [heq]
    exact h.bounded base
  · have hcovers := h.covers base n hn
    have hmax : (observeExtractedName after key).getD base 2 ≤ max (after.getD base 2) 2 := by
      rw [Std.ExtTreeMap.getD_eq_getD_getElem?] at hcovers
      rw [heq, Std.ExtTreeMap.getD_eq_getD_getElem?]
      cases hget : after[base]? with
      | none =>
        rw [hget] at hcovers
        exact max_le (hcovers.trans (le_max_right _ _)) (le_max_right _ _)
      | some current =>
        rw [hget] at hcovers
        exact max_le (le_max_left _ _) (max_le (hcovers.trans (le_max_left _ _)) (le_max_right _ _))
    rcases le_max_iff.mp hmax with hle | hle
    · exact (h.bounded base).imp (le_trans hle) (Or.imp (le_trans hle) fun hex => hex.imp fun _ hn =>
        ⟨hn.1, hle.trans hn.2⟩)
    · exact .inr (.inl hle)

/-- The number of a base stays or is taken. -/
theorem insert_takes {before : Suffixes} {base key : String} {next : Usize} (name : String)
    (hnext : next = before.getD base 2 ∨ next = (before.getD base 2).saturatingSucc)
    (hkey : ∀ b n, numberedParts key = some (b, n) → b = base ∧ n.saturatingSucc ≤ next) :
    Takes before (before.insert base next) name key := by
  have hle : before.getD base 2 ≤ next := hnext.elim Eq.ge fun h => h ▸ Usize.le_saturatingSucc _
  have hval : next.val ≤ (before.getD base 2).val + 1 :=
    hnext.elim (fun h => h ▸ Nat.le_succ _) fun h => h ▸ Usize.val_saturatingSucc_le _
  have hget (b : String) : (before.insert base next).getD b 2 = if base = b then next else before.getD b 2 := by
    rw [Std.ExtTreeMap.getD_insert]
    exact if_congr Std.LawfulEqCmp.compare_eq_iff_eq rfl rfl
  refine ⟨fun b => ?_, fun b n hparts => ?_, fun b => .inl ?_⟩
  · rw [hget]
    split
    next heq => exact heq ▸ hle
    · exact le_rfl
  · obtain ⟨rfl, hn⟩ := hkey b n hparts
    rwa [hget, if_pos rfl]
  · rw [hget]
    split
    next heq => exact heq ▸ hval
    · exact Nat.le_succ _

theorem insert_takes_extractedBase (before : Suffixes) (name : String) :
    Takes before (before.insert (extractedBase name) (before.getD (extractedBase name) 2)) name (extractedBase name) :=
  insert_takes name (.inl rfl) fun b n hparts => (by rw [numberedParts_extractedBase] at hparts; cases hparts)

theorem insert_takes_numbered (before : Suffixes) (name : String) :
    Takes before (before.insert (extractedBase name) (before.getD (extractedBase name) 2).saturatingSucc) name
      (numbered (extractedBase name) (before.getD (extractedBase name) 2)) := by
  refine insert_takes name (.inr rfl) fun b n hparts => ?_
  rw [numberedParts_numbered] at hparts
  cases hparts
  exact ⟨rfl, le_rfl⟩

/-- The first number that is tried is free, or none is. -/
theorem chooseName_numbered {fields : Labels} {nextSuffix : Suffixes} (h : Counted fields nextSuffix)
    {name : String} {fuel : Nat}
    {r : String × Usize} (hbase : extractedBase name ∈ fields)
    (hr : chooseName fields (extractedBase name) fuel (extractedBase name)
      (nextSuffix.getD (extractedBase name) 2) = some r) :
    r = (numbered (extractedBase name) (nextSuffix.getD (extractedBase name) 2),
      (nextSuffix.getD (extractedBase name) 2).saturatingSucc) := by
  by_cases htaken : numbered (extractedBase name) (nextSuffix.getD (extractedBase name) 2) ∈ fields
  · have hlast := h.greatest htaken le_rfl
    rw [chooseName_eq_none hbase] at hr
    · cases hr
    · intro n hn
      rw [le_antisymm n.le_greatest (hlast ▸ hn), ← hlast]
      exact htaken
  · cases fuel with
    | zero => cases hr
    | succ fuel =>
      rw [chooseName, if_pos hbase] at hr
      cases fuel with
      | zero => cases hr
      | succ fuel =>
        rw [chooseName, if_neg htaken] at hr
        exact (Option.some_inj.mp hr).symm

theorem insertExtractedWithCounter_takes {fuel : Nat} {s s' : Extracted} {name value : String}
    (hcounted : Counted s.fields s.nextSuffix) (h : insertExtractedWithCounter fuel s name value = some s') :
    Counted s'.fields s'.nextSuffix ∧ ∃ key, Takes s.nextSuffix s'.nextSuffix name key := by
  suffices htakes : ∃ key, s'.fields = s.fields.insert key value ∧ Takes s.nextSuffix s'.nextSuffix name key by
    obtain ⟨key, hfields, hkey⟩ := htakes
    exact ⟨hfields ▸ hcounted.takes hkey, key, hkey⟩
  rw [insertExtractedWithCounter] at h
  split at h
  · cases h
    exact ⟨name, rfl, observe_takes _ _⟩
  · obtain ⟨r, hr, heq⟩ := Option.map_eq_some_iff.mp h
    cases heq
    by_cases hbase : extractedBase name ∈ s.fields
    · cases chooseName_numbered hcounted hbase hr
      exact ⟨_, rfl, insert_takes_numbered _ _⟩
    · cases fuel with
      | zero => cases hr
      | succ fuel =>
        rw [chooseName, if_neg hbase] at hr
        cases hr
        exact ⟨_, rfl, insert_takes_extractedBase _ _⟩

/-! ## Runs of insertions -/

/-- No insertion of a run meets a crowded name. -/
def Uncrowded (s : Extracted) (pairs : List (String × String)) : Prop :=
  ∀ done name value rest, pairs = done ++ (name, value) :: rest → ∀ fuel s', insertAll fuel s done = some s' →
    ¬ Crowded s'.fields name

/-- Numbers enough for all names: no counter and no number that a name bears comes near the greatest one. -/
structure Roomy (nextSuffix : Suffixes) (names : List String) : Prop where
  length : 2 + names.length < Usize.greatest.val
  counters : ∀ base, (nextSuffix.getD base 2).val + names.length < Usize.greatest.val
  numbers : ∀ name ∈ names, ∀ base n, numberedParts name = some (base, n) → n.val + names.length < Usize.greatest.val

theorem roomy_of_plain {names : List String} (hlength : 2 + names.length < Usize.greatest.val)
    (hplain : ∀ name ∈ names, numberedParts name = none) : Roomy ∅ names := by
  refine ⟨hlength, fun base => by simpa using hlength, fun name hname base n hparts => ?_⟩
  rw [hplain name hname] at hparts
  cases hparts

theorem Roomy.tail {nextSuffix : Suffixes} {name : String} {names : List String}
    (h : Roomy nextSuffix (name :: names)) :
    Roomy nextSuffix names := by
  have hlength : names.length ≤ (name :: names).length := Nat.le_succ _
  refine ⟨?_, fun base => ?_, fun x hx base n hparts => ?_⟩
  · have := h.length
    omega
  · have := h.counters base
    omega
  · have := h.numbers x (List.mem_cons_of_mem _ hx) base n hparts
    omega

theorem Roomy.takes {before after : Suffixes} {name key : String} {names : List String}
    (h : Roomy before (name :: names))
    (ht : Takes before after name key) : Roomy after names := by
  refine ⟨h.tail.length, fun base => ?_, h.tail.numbers⟩
  rcases ht.bounded base with hle | hle | ⟨n, hn, hle⟩
  · have := h.counters base
    rw [List.length_cons] at this
    omega
  · have hval : (after.getD base 2).val ≤ 2 := hle
    have := h.tail.length
    omega
  · have hval : (after.getD base 2).val ≤ n.val + 1 := le_trans hle n.val_saturatingSucc_le
    have := h.numbers name List.mem_cons_self base n hn
    rw [List.length_cons] at this
    omega

theorem Roomy.not_crowded {fields : Labels} {nextSuffix : Suffixes} {name : String} {names : List String}
    (h : Roomy nextSuffix names) (hcounted : Counted fields nextSuffix) : ¬ Crowded fields name := by
  rintro ⟨-, -, hlast⟩
  have hle := (Usize.le_saturatingSucc _).trans (hcounted _ hlast _ _ (numberedParts_numbered name _))
  have hval : Usize.greatest.val ≤ (nextSuffix.getD (extractedBase name) 2).val := hle
  have := h.counters (extractedBase name)
  omega

theorem insertAll_cons_free {fuel : Nat} {s : Extracted} {name value : String} {pairs : List (String × String)}
    (h : name ∉ s.fields) : insertAll fuel s ((name, value) :: pairs)
      = insertAll fuel ⟨s.fields.insert name value, observeExtractedName s.nextSuffix name⟩ pairs := by
  rw [insertAll, List.foldlM_cons, insertExtractedWithCounter, if_pos h]
  rfl

theorem insertAll_append (fuel : Nat) (s : Extracted) (a b : List (String × String)) :
    insertAll fuel s (a ++ b) = (insertAll fuel s a).bind fun s => insertAll fuel s b := List.foldlM_append

theorem insertAll_counted {fuel : Nat} {s s' : Extracted} {pairs : List (String × String)}
    (hcounted : Counted s.fields s.nextSuffix) (h : insertAll fuel s pairs = some s') :
      Counted s'.fields s'.nextSuffix := by
  induction pairs generalizing s with
  | nil => exact Option.some_inj.mp h ▸ hcounted
  | cons pair pairs ih =>
    rw [insertAll, List.foldlM_cons] at h
    obtain ⟨next, hnext, h⟩ := Option.bind_eq_some_iff.mp h
    exact ih (insertExtractedWithCounter_takes hcounted hnext).1 h

theorem Roomy.insertAll {fuel : Nat} {s s' : Extracted} {done rest : List (String × String)}
    (hcounted : Counted s.fields s.nextSuffix) (hroomy : Roomy s.nextSuffix ((done ++ rest).map Prod.fst))
    (h : insertAll fuel s done = some s') : Roomy s'.nextSuffix (rest.map Prod.fst) := by
  induction done generalizing s with
  | nil => exact Option.some_inj.mp h ▸ hroomy
  | cons pair done ih =>
    rw [Signy.insertAll, List.foldlM_cons] at h
    obtain ⟨next, hnext, h⟩ := Option.bind_eq_some_iff.mp h
    obtain ⟨hcounted', key, htakes⟩ := insertExtractedWithCounter_takes hcounted hnext
    exact ih hcounted' (hroomy.takes htakes) h

theorem uncrowded_of_roomy {s : Extracted} {pairs : List (String × String)} (hcounted : Counted s.fields s.nextSuffix)
    (h : Roomy s.nextSuffix (pairs.map Prod.fst)) : Uncrowded s pairs := by
  rintro done name value rest rfl fuel s' hrun
  exact (h.insertAll hcounted hrun).not_crowded (insertAll_counted hcounted hrun)

/-- **A run of insertions ends exactly when none meets a crowded name.** -/
theorem insertAll_ends {s : Extracted} (hcounted : Counted s.fields s.nextSuffix) (pairs : List (String × String)) :
    (∃ fuel s', insertAll fuel s pairs = some s') ↔ Uncrowded s pairs := by
  constructor
  · rintro ⟨fuel, s', h⟩ done name value rest rfl fuel' reached hreached
    rw [insertAll_append] at h
    obtain ⟨next, hnext, h⟩ := Option.bind_eq_some_iff.mp h
    have hsame := insertAll_mono (le_max_left fuel fuel') hnext
    rw [insertAll_mono (le_max_right fuel fuel') hreached, Option.some_inj] at hsame
    rw [insertAll, List.foldlM_cons] at h
    obtain ⟨_, hinsert, -⟩ := Option.bind_eq_some_iff.mp h
    rw [← room_iff (insertAll_counted hcounted hreached), hsame]
    exact (insertExtractedWithCounter_ends next name value).mp ⟨fuel, _, hinsert⟩
  · induction pairs using List.reverseRecOn with
    | nil => exact fun _ => ⟨0, s, rfl⟩
    | append_singleton pairs pair ih =>
      intro h
      obtain ⟨fuel, next, hnext⟩ := ih fun done name value rest hsplit =>
        h done name value (rest ++ [pair]) (by rw [hsplit, List.append_assoc]; rfl)
      have hroom := (room_iff (insertAll_counted hcounted hnext) pair.1).mpr
        (h pairs pair.1 pair.2 [] rfl fuel next hnext)
      obtain ⟨fuel', s', hs'⟩ := (insertExtractedWithCounter_ends next pair.1 pair.2).mpr hroom
      refine ⟨max fuel fuel', s', ?_⟩
      rw [insertAll_append, insertAll_mono (le_max_left fuel fuel') hnext, Option.bind_some, insertAll,
        List.foldlM_cons,
        insertExtractedWithCounter_mono (le_max_right fuel fuel') hs']
      rfl

/-- A run ends with everything kept and added exactly when no insertion meets a crowded name. -/
theorem insertAll_grows {s : Extracted} (hcounted : Counted s.fields s.nextSuffix) (pairs : List (String × String)) :
    (∃ fuel s', insertAll fuel s pairs = some s' ∧ Grown s.fields (pairs.map Prod.snd) s'.fields) ↔
      Uncrowded s pairs := by
  rw [← insertAll_ends hcounted]
  exact ⟨fun ⟨fuel, s', h, _⟩ => ⟨fuel, s', h⟩, fun ⟨fuel, s', h⟩ => ⟨fuel, s', h, insertAll_grown h⟩⟩

theorem counted_empty : Counted ∅ ∅ := fun _ hname => absurd hname Std.ExtTreeMap.not_mem_empty

/-- The fields of a row before its first parser stage, with a look at each name. -/
def Extracted.start (fields : Labels) : Extracted := ⟨fields, fields.keys.foldl observeExtractedName ∅⟩

theorem Extracted.counted_start (fields : Labels) : Counted (start fields).fields (start fields).nextSuffix := by
  suffices h : ∀ (names : List String) (nextSuffix : Suffixes), (∀ base, nextSuffix.getD base 2
      ≤ (names.foldl observeExtractedName nextSuffix).getD base 2) ∧ ∀ name ∈ names, ∀ base n,
        numberedParts name = some (base, n) →
          n.saturatingSucc ≤ (names.foldl observeExtractedName nextSuffix).getD base 2 from
    fun name hname => (h fields.keys ∅).2 name (Std.ExtTreeMap.mem_keys.mpr hname)
  intro names
  induction names with
  | nil => exact fun _ => ⟨fun _ => le_rfl, by simp⟩
  | cons first names ih =>
    intro nextSuffix
    have htakes := observe_takes nextSuffix first
    refine ⟨fun base => (htakes.grows base).trans ((ih _).1 base), fun name hname base n hparts => ?_⟩
    rcases List.mem_cons.mp hname with rfl | hname
    · exact (htakes.covers base n hparts).trans ((ih _).1 base)
    · exact (ih _).2 name hname base n hparts

/-! ## The scalars of a value -/

mutual

/-- The texts of the scalars, null as an empty one. -/
def Value.scalars : Value → List String
  | .null => [""]
  | .bool value => [toString value]
  | .number text => [text]
  | .string value => [value]
  | .array items => Value.scalarsOf items
  | .object entries => Value.scalarsIn entries

def Value.scalarsOf : List Value → List String
  | [] => []
  | value :: items => value.scalars ++ Value.scalarsOf items

def Value.scalarsIn : List (String × Value) → List String
  | [] => []
  | (_, value) :: entries => value.scalars ++ Value.scalarsIn entries

end

mutual

/-- Flattening inserts each scalar once. -/
theorem flattenValue_perm (path : String) : ∀ value : Value, ((flattenValue path value).map Prod.snd).Perm value.scalars
  | .null => by simp [flattenValue, Value.scalars]
  | .bool value => by simp [flattenValue, Value.scalars]
  | .number text => by simp [flattenValue, Value.scalars]
  | .string value => by simp [flattenValue, Value.scalars]
  | .array items => by
    rw [flattenValue, Value.scalars]
    exact flattenArray_perm path 0 items
  | .object entries => by
    rw [flattenValue, Value.scalars]
    refine List.Perm.trans ?_ (flattenEntries_perm path entries)
    exact ((List.perm_insertionSort _ _).flatMap_right _).map _

theorem flattenArray_perm (path : String) : ∀ (index : Nat) (items : List Value),
    ((flattenArray path index items).map Prod.snd).Perm (Value.scalarsOf items)
  | _, [] => by simp [flattenArray, Value.scalarsOf]
  | index, value :: items => by
    rw [flattenArray, Value.scalarsOf, List.map_append]
    exact (flattenValue_perm _ value).append (flattenArray_perm path (index + 1) items)

theorem flattenEntries_perm (path : String) : ∀ entries : List (String × Value),
    (((flattenEntries path entries).flatMap (·.2)).map Prod.snd).Perm (Value.scalarsIn entries)
  | [] => by simp [flattenEntries, Value.scalarsIn]
  | (name, value) :: entries => by
    rw [flattenEntries, Value.scalarsIn, List.flatMap_cons, List.map_append]
    exact (flattenValue_perm _ value).append (flattenEntries_perm path entries)

end

/-! ## Whole extractions -/

/-- A line that is an object or an array. -/
def Value.Compound : Value → Prop
  | .object _ | .array _ => True
  | _ => False

theorem extractJson_compound {parse : String → Option Value} {line : String} {value : Value}
    (h : parse line = some value)
    (hcompound : value.Compound) (fuel : Nat) :
    extractJson parse fuel line = (insertAll fuel ⟨∅, ∅⟩ (flattenValue "" value)).map fun s => .ok s.fields := by
  rw [extractJson, h]
  cases value with
  | object | array => rfl
  | null | bool | number | string => exact hcompound.elim

/-- The `json` stage ends with one field for each scalar exactly when no insertion meets a crowded name. -/
theorem extractJson_iff {parse : String → Option Value} {line : String} {value : Value} (h : parse line = some value)
    (hcompound : value.Compound) :
    (∃ fuel fields, extractJson parse fuel line = some (.ok fields) ∧
      (fields.toList.map Prod.snd).Perm value.scalars) ↔ Uncrowded ⟨∅, ∅⟩ (flattenValue "" value) := by
  have hscalars := flattenValue_perm "" value
  rw [← insertAll_grows counted_empty]
  simp only [extractJson_compound h hcompound, Option.map_eq_some_iff]
  constructor
  · rintro ⟨fuel, fields, ⟨s, hs, -⟩, -⟩
    exact ⟨fuel, s, hs, insertAll_grown hs⟩
  · rintro ⟨fuel, s, hs, hgrown⟩
    have hadded : (s.fields.toList.map Prod.snd).Perm ((flattenValue "" value).map Prod.snd) := hgrown.added
    exact ⟨fuel, s.fields, ⟨s, hs, rfl⟩, hadded.trans hscalars⟩

end Signy
