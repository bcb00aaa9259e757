/-
The `logfmt` stage (signy/src/logql/pipeline.rs): how a line of `key=value` pairs is read, and the fields it gives.

A raw key keeps the name it got first, and a later value under it replaces the earlier one. Another raw key with the
same sanitized name gets the end `_extracted`, or a number after that. A line is a list of characters: every byte that
the reader looks at is ASCII or belongs to a character that it copies whole.
-/
import Fn0.Signy.FieldExtraction

namespace Signy

open Std (ExtTreeMap)
open OrdMap (getElem?_insert getElem?_insert_self mem_toList toList_sorted)

/-! ## Reading pairs -/

/-- `u8::is_ascii_whitespace` -/
def isAsciiWhitespace (c : Char) : Bool := c.toNat ∈ [0x20, 0x09, 0x0a, 0x0c, 0x0d]

/-- `char::to_digit` -/
def toDigit (radix : Nat) (c : Char) : Option Nat :=
  let digit :=
    if c.isDigit then c.toNat - '0'.toNat
    else if c.isLower then c.toNat - 'a'.toNat + 10
    else if c.isUpper then c.toNat - 'A'.toNat + 10
    else radix
  if digit < radix then some digit else none

/-- `u32::from_str_radix` of at most eight digits. -/
def fromStrRadix (radix : Nat) (text : Text) : Option Nat :=
  let digits := match text with
    | '+' :: rest => rest
    | _ => text
  if digits = [] then none else digits.foldlM (fun n c => (toDigit radix c).map (n * radix + ·)) 0

/-- The character with this many digits, and what follows them. -/
def parseLogfmtEscapeDigits (digits radix : Nat) (input : Text) : Option (Nat × Text) :=
  let encoded := input.take digits
  if encoded.length = digits ∧ encoded.all (·.toNat < 128) then
    (fromStrRadix radix encoded).map fun codepoint => (codepoint, input.drop digits)
  else none

/-- `char::from_u32` -/
def charFromU32 (codepoint : Nat) : Option Char := if codepoint.isValidChar then some (Char.ofNat codepoint) else none

def escapeWith (digits radix : Nat) (input : Text) : Option (Char × Text) :=
  (parseLogfmtEscapeDigits digits radix input).bind fun (codepoint, rest) => (charFromU32 codepoint).map (·, rest)

/-- An escape of one byte. -/
def escapeByte (digits radix : Nat) (input : Text) : Option (Char × Text) :=
  (parseLogfmtEscapeDigits digits radix input).bind fun (codepoint, rest) =>
    if codepoint > 255 then none else (charFromU32 codepoint).map (·, rest)

/-- What follows a backslash (`5c`); a quote is `22`. -/
def parseEscape : Text → Option (Char × Text)
  | [] => none
  | 'a' :: rest => some (Char.ofNat 0x07, rest)
  | 'b' :: rest => some (Char.ofNat 0x08, rest)
  | 'f' :: rest => some (Char.ofNat 0x0c, rest)
  | 'n' :: rest => some ('\n', rest)
  | 'r' :: rest => some ('\r', rest)
  | 't' :: rest => some ('\t', rest)
  | 'v' :: rest => some (Char.ofNat 0x0b, rest)
  | '\x22' :: rest => some ('\x22', rest)
  | '\x5c' :: rest => some ('\x5c', rest)
  | 'x' :: rest => escapeByte 2 16 rest
  | 'u' :: rest => escapeWith 4 16 rest
  | 'U' :: rest => escapeWith 8 16 rest
  | c :: rest => if '0' ≤ c ∧ c ≤ '7' then escapeByte 3 8 (c :: rest) else none

theorem parseLogfmtEscapeDigits_length {digits radix codepoint : Nat} {input rest : Text}
    (h : parseLogfmtEscapeDigits digits radix input = some (codepoint, rest)) : rest.length ≤ input.length := by
  obtain ⟨-, h⟩ := Option.ite_none_right_eq_some.mp h
  obtain ⟨_, -, heq⟩ := Option.map_eq_some_iff.mp h
  cases heq
  simp

theorem escapeWith_length {digits radix : Nat} {input rest : Text} {c : Char}
    (h : escapeWith digits radix input = some (c, rest)) : rest.length ≤ input.length := by
  obtain ⟨⟨codepoint, rest'⟩, hdigits, h⟩ := Option.bind_eq_some_iff.mp h
  obtain ⟨_, -, heq⟩ := Option.map_eq_some_iff.mp h
  cases heq
  exact parseLogfmtEscapeDigits_length hdigits

theorem escapeByte_length {digits radix : Nat} {input rest : Text} {c : Char}
    (h : escapeByte digits radix input = some (c, rest)) : rest.length ≤ input.length := by
  obtain ⟨⟨codepoint, rest'⟩, hdigits, h⟩ := Option.bind_eq_some_iff.mp h
  obtain ⟨-, h⟩ := Option.ite_none_left_eq_some.mp h
  obtain ⟨_, -, heq⟩ := Option.map_eq_some_iff.mp h
  cases heq
  exact parseLogfmtEscapeDigits_length hdigits

theorem parseEscape_length {input rest : Text} {c : Char} (h : parseEscape input = some (c, rest)) :
    rest.length ≤ input.length := by
  rw [parseEscape.eq_def] at h
  split at h
  case h_1 => cases h
  case h_11 => exact (escapeByte_length h).trans (by simp)
  case h_12 => exact (escapeWith_length h).trans (by simp)
  case h_13 => exact (escapeWith_length h).trans (by simp)
  case h_14 => exact escapeByte_length (Option.ite_none_right_eq_some.mp h).2
  all_goals
    cases h
    simp

/-- A value after its opening quote, up to the closing one, and what follows that. -/
def parseLogfmtQuoted (value : Text) : Text → Option (Text × Text)
  | [] => none
  | '\x22' :: rest => some (value, rest)
  | '\x5c' :: rest =>
    match _h : parseEscape rest with
    | none => none
    | some (c, rest) => parseLogfmtQuoted (value ++ [c]) rest
  | c :: rest => parseLogfmtQuoted (value ++ [c]) rest
termination_by input => input.length
decreasing_by
  · have := parseEscape_length _h
    simp only [List.length_cons]
    omega
  · simp

def isKeyChar (c : Char) : Bool := !isAsciiWhitespace c && c ≠ '='

/-- The value after the equals sign, and what follows it. -/
def logfmtValue : Text → Option (Text × Text)
  | '\x22' :: quoted =>
    (parseLogfmtQuoted [] quoted).bind fun (value, rest) =>
      if rest.head?.any (!isAsciiWhitespace ·) then none else some (value, rest)
  | input => some (input.takeWhile (!isAsciiWhitespace ·), input.dropWhile (!isAsciiWhitespace ·))

/-- The pair at the front of a line, and what follows it. -/
def logfmtPair (input : Text) : Option ((String × String) × Text) :=
  let rawKey := input.takeWhile isKeyChar
  if rawKey = [] then none
  else match input.dropWhile isKeyChar with
    | '=' :: after => (logfmtValue after).map fun (value, rest) => ((String.ofList rawKey, String.ofList value), rest)
    | _ => none

theorem parseLogfmtQuoted_length {value input value' rest : Text}
    (h : parseLogfmtQuoted value input = some (value', rest)) :
    rest.length ≤ input.length := by
  fun_induction parseLogfmtQuoted value input with
  | case1 => cases h
  | case2 => cases h; simp
  | case3 => cases h
  | case4 value input c rest' hescape ih =>
    have := parseEscape_length hescape
    exact (ih h).trans (this.trans (by simp))
  | case5 value c input _ _ ih => exact (ih h).trans (by simp)

theorem logfmtValue_length {input value rest : Text} (h : logfmtValue input = some (value, rest)) :
    rest.length ≤ input.length := by
  rw [logfmtValue.eq_def] at h
  split at h
  · obtain ⟨_, hquoted, h⟩ := Option.bind_eq_some_iff.mp h
    obtain ⟨-, heq⟩ := Option.ite_none_left_eq_some.mp h
    cases heq
    exact (parseLogfmtQuoted_length hquoted).trans (by simp)
  · cases h
    exact (List.dropWhile_suffix _).length_le

theorem logfmtPair_length {input rest : Text} {pair : String × String} (h : logfmtPair input = some (pair, rest)) :
    rest.length < input.length := by
  rw [logfmtPair] at h
  dsimp only at h
  split at h
  · cases h
  split at h
  next after hafter =>
    obtain ⟨_, hvalue, heq⟩ := Option.map_eq_some_iff.mp h
    cases heq
    have hsuffix := (List.dropWhile_suffix (p := isKeyChar) (l := input)).length_le
    have := logfmtValue_length hvalue
    rw [hafter, List.length_cons] at hsuffix
    omega
  · cases h

/-- The pairs of a line, `none` when it is not logfmt. -/
def logfmtPairs (line : Text) : Option (List (String × String)) :=
  let input := line.dropWhile isAsciiWhitespace
  if input = [] then some []
  else
    match _h : logfmtPair input with
    | none => none
    | some (pair, rest) => (logfmtPairs rest).map (pair :: ·)
termination_by line.length
decreasing_by
  exact (logfmtPair_length _h).trans_le (List.dropWhile_suffix _).length_le

/-! ## Fields -/

/-- The fields so far, the name that each raw key got, and the numbers to try next. -/
structure Logfmt where
  fields : Labels
  sourceKeys : ExtTreeMap String String compare
  nextSuffix : Suffixes

namespace Logfmt

/-- The name for a sanitized key that is new. A number is taken without a look at the fields. -/
def storageKey (s : Logfmt) (key : String) : String × Suffixes :=
  if key ∈ s.fields then
    let base := extractedBase key
    let suffix := s.nextSuffix.getD base 2
    if base ∈ s.fields then (numbered base suffix, s.nextSuffix.insert base suffix.saturatingSucc)
    else (base, s.nextSuffix.insert base suffix)
  else (key, s.nextSuffix)

def insert (s : Logfmt) (rawKey value : String) : Logfmt :=
  match s.sourceKeys[rawKey]? with
  | some storageKey => { s with fields := s.fields.insert storageKey value }
  | none =>
    let (storageKey, nextSuffix) := s.storageKey (sanitizeFieldName rawKey)
    ⟨s.fields.insert storageKey value, s.sourceKeys.insert rawKey storageKey,
      observeExtractedName nextSuffix storageKey⟩

def insertPairs (s : Logfmt) (pairs : List (String × String)) : Logfmt :=
    pairs.foldl (fun s pair => s.insert pair.1 pair.2) s

end Logfmt

def extractLogfmt (line : String) : Except ExtractError Labels :=
  match logfmtPairs line.toList with
  | none => .error .parse
  | some pairs => .ok ((⟨∅, ∅, ∅⟩ : Logfmt).insertPairs pairs).fields

/-! ## One field for each raw key -/

/-- The last value that a raw key is given. -/
def lastValue (pairs : List (String × String)) (key : String) : Option String :=
  (pairs.reverse.find? (·.1 = key)).map Prod.snd

theorem lastValue_concat (pairs : List (String × String)) (pair : String × String) (key : String) :
    lastValue (pairs ++ [pair]) key = if pair.1 = key then some pair.2 else lastValue pairs key := by
  rw [lastValue, List.reverse_concat, List.find?_cons]
  split <;> simp_all [lastValue]

/-- One field for each distinct raw key, with the last value of the key. -/
def OnePerKey (pairs : List (String × String)) (fields : Labels) : Prop :=
  ∃ nameOf : String → String,
    (∀ key key', (lastValue pairs key).isSome → (lastValue pairs key').isSome → nameOf key = nameOf key' → key = key') ∧
      ∀ (name value : String), fields[name]? = some value ↔ ∃ key, nameOf key = name ∧ lastValue pairs key = some value

namespace Logfmt

/-- The raw key is known, or the name that it gets is free. -/
def Fresh (s : Logfmt) (rawKey : String) : Prop :=
  rawKey ∈ s.sourceKeys ∨ (s.storageKey (sanitizeFieldName rawKey)).1 ∉ s.fields

/-- Each pair of a run finds a free name. -/
def FreshAll (s : Logfmt) : List (String × String) → Prop
  | [] => True
  | (rawKey, value) :: pairs => s.Fresh rawKey ∧ (s.insert rawKey value).FreshAll pairs

/-- The raw keys so far are those of the pairs. -/
def Sourced (s : Logfmt) (pairs : List (String × String)) : Prop :=
  ∀ key : String, s.sourceKeys[key]?.isSome = (lastValue pairs key).isSome

/-- Each raw key has its own name, and the fields are these names with the last values. -/
structure Named (s : Logfmt) (pairs : List (String × String)) : Prop where
  sourced : s.Sourced pairs
  apart : ∀ key key' name : String, s.sourceKeys[key]? = some name → s.sourceKeys[key']? = some name → key = key'
  held : ∀ (name value : String), s.fields[name]? = some value ↔
    ∃ key, s.sourceKeys[key]? = some name ∧ lastValue pairs key = some value

theorem insert_known {s : Logfmt} {rawKey storageKey : String} (value : String)
    (h : s.sourceKeys[rawKey]? = some storageKey) :
    s.insert rawKey value = { s with fields := s.fields.insert storageKey value } := by
  rw [insert, h]

theorem insert_new {s : Logfmt} {rawKey : String} (value : String) (h : s.sourceKeys[rawKey]? = none) :
    (s.insert rawKey value).fields = s.fields.insert (s.storageKey (sanitizeFieldName rawKey)).1 value ∧
      (s.insert rawKey value).sourceKeys = s.sourceKeys.insert rawKey (s.storageKey (sanitizeFieldName rawKey)).1 := by
  rw [insert, h]
  exact ⟨rfl, rfl⟩

theorem Sourced.insert {s : Logfmt} {pairs : List (String × String)} (h : s.Sourced pairs) (rawKey value : String) :
    (s.insert rawKey value).Sourced (pairs ++ [(rawKey, value)]) := by
  intro key
  rw [lastValue_concat]
  cases hknown : s.sourceKeys[rawKey]? with
  | some storageKey =>
    rw [insert_known value hknown]
    split
    next heq =>
      subst heq
      simp [hknown]
    · exact h key
  | none =>
    rw [(insert_new value hknown).2, getElem?_insert]
    split
    · rfl
    · exact h key

theorem sourced_empty : (⟨∅, ∅, ∅⟩ : Logfmt).Sourced [] := fun key => by simp [lastValue]

/-- A name that no field has belongs to no raw key. -/
theorem Named.unused {s : Logfmt} {pairs : List (String × String)} (h : s.Named pairs) {name : String}
    (hname : name ∉ s.fields) (key : String) : s.sourceKeys[key]? ≠ some name := by
  intro hkey
  have hsome : (lastValue pairs key).isSome := by rw [← h.sourced key, hkey]; rfl
  obtain ⟨value, hvalue⟩ := Option.isSome_iff_exists.mp hsome
  have hfield := (h.held name value).mpr ⟨key, hkey, hvalue⟩
  rw [getElem?_neg s.fields name hname] at hfield
  cases hfield

theorem Named.insert_known {s : Logfmt} {pairs : List (String × String)} (h : s.Named pairs)
    {rawKey storageKey : String}
    (hknown : s.sourceKeys[rawKey]? = some storageKey) (value : String) :
    (s.insert rawKey value).Named (pairs ++ [(rawKey, value)]) := by
  refine ⟨h.sourced.insert rawKey value, ?_, fun name new => ?_⟩
  · rw [Logfmt.insert_known value hknown]
    exact h.apart
  · rw [Logfmt.insert_known value hknown, getElem?_insert]
    simp only [lastValue_concat]
    split
    next heq =>
      subst heq
      constructor
      · intro hnew
        exact ⟨rawKey, hknown, by rw [if_pos rfl, hnew]⟩
      · rintro ⟨key, hkey, hnew⟩
        obtain rfl := h.apart rawKey key storageKey hknown hkey
        rwa [if_pos rfl] at hnew
    next hne =>
      have hother {key : String} (hkey : s.sourceKeys[key]? = some name) : rawKey ≠ key := by
        rintro rfl
        rw [hknown] at hkey
        exact hne (Option.some_inj.mp hkey)
      rw [h.held name new]
      refine exists_congr fun key => and_congr_right fun hkey => ?_
      rw [if_neg (hother hkey)]

theorem Named.insert_new {s : Logfmt} {pairs : List (String × String)} (h : s.Named pairs) {rawKey : String}
    (hnew : s.sourceKeys[rawKey]? = none) (hfree : (s.storageKey (sanitizeFieldName rawKey)).1 ∉ s.fields)
    (value : String) :
    (s.insert rawKey value).Named (pairs ++ [(rawKey, value)]) := by
  have hunused := h.unused hfree
  obtain ⟨hfields, hkeys⟩ := Logfmt.insert_new value hnew
  refine ⟨h.sourced.insert rawKey value, fun key key' name hkey hkey' => ?_, fun name new => ?_⟩
  · rw [hkeys, getElem?_insert] at hkey hkey'
    split at hkey <;> split at hkey'
    next h₁ h₂ => exact h₁.symm.trans h₂
    · cases hkey
      exact absurd hkey' (hunused _)
    · cases hkey'
      exact absurd hkey (hunused _)
    · exact h.apart key key' name hkey hkey'
  · rw [hfields, hkeys, getElem?_insert]
    simp only [lastValue_concat, getElem?_insert]
    split
    next heq =>
      subst heq
      constructor
      · intro hvalue
        exact ⟨rawKey, by rw [if_pos rfl], by rw [if_pos rfl, hvalue]⟩
      · rintro ⟨key, hkey, hvalue⟩
        split at hkey
        next heq => rwa [if_pos heq] at hvalue
        · exact absurd hkey (hunused _)
    next hne =>
      rw [h.held name new]
      refine exists_congr fun key => ?_
      by_cases heq : rawKey = key
      · subst heq
        rw [if_pos rfl, if_pos rfl, hnew]
        exact iff_of_false (fun hkey => nomatch hkey.1) fun hkey => hne (Option.some_inj.mp hkey.1)
      · rw [if_neg heq, if_neg heq]

theorem Named.insert {s : Logfmt} {pairs : List (String × String)} (h : s.Named pairs) {rawKey : String}
    (hfresh : s.Fresh rawKey)
    (value : String) : (s.insert rawKey value).Named (pairs ++ [(rawKey, value)]) := by
  cases hknown : s.sourceKeys[rawKey]? with
  | some storageKey => exact h.insert_known hknown value
  | none =>
    refine h.insert_new hknown (hfresh.resolve_left fun hmem => ?_) value
    rw [Std.ExtTreeMap.mem_iff_isSome_getElem?, hknown] at hmem
    cases hmem

theorem Named.insertPairs {s : Logfmt} {done pairs : List (String × String)} (h : s.Named done)
    (hfresh : s.FreshAll pairs) :
    (s.insertPairs pairs).Named (done ++ pairs) := by
  induction pairs generalizing s done with
  | nil => simpa [Logfmt.insertPairs] using h
  | cons pair pairs ih =>
    have hrest := ih (h.insert hfresh.1 pair.2) hfresh.2
    rwa [List.append_assoc] at hrest

theorem Named.onePerKey {s : Logfmt} {pairs : List (String × String)} (h : s.Named pairs) :
    OnePerKey pairs s.fields := by
  have hsome {key : String} (hkey : (lastValue pairs key).isSome) : s.sourceKeys[key]? = some
    (s.sourceKeys.getD key "") := by
    rw [← h.sourced key] at hkey
    obtain ⟨name, hname⟩ := Option.isSome_iff_exists.mp hkey
    rw [Std.ExtTreeMap.getD_eq_getD_getElem?, hname]
    rfl
  refine ⟨fun key => s.sourceKeys.getD key "", fun key key' hkey hkey' heq => ?_, fun name value => ?_⟩
  · exact h.apart key key' _ (hsome hkey) ((hsome hkey').trans (congrArg some heq.symm))
  · rw [h.held name value]
    constructor
    · rintro ⟨key, hkey, hvalue⟩
      have hname := hsome (by rw [hvalue]; rfl)
      rw [hkey, Option.some_inj] at hname
      exact ⟨key, hname.symm, hvalue⟩
    · rintro ⟨key, rfl, hvalue⟩
      exact ⟨key, hsome (by rw [hvalue]; rfl), hvalue⟩

/-! A raw key that gets a name which is taken leaves one field too few, and no later pair makes up for it. -/

/-- The names of the raw keys are fields. -/
def Stored (s : Logfmt) : Prop := ∀ key name : String, s.sourceKeys[key]? = some name → name ∈ s.fields

theorem Stored.insert {s : Logfmt} (h : s.Stored) (rawKey value : String) : (s.insert rawKey value).Stored := by
  intro key name hkey
  cases hknown : s.sourceKeys[rawKey]? with
  | some storageKey =>
    rw [Logfmt.insert_known value hknown] at hkey ⊢
    exact Std.ExtTreeMap.mem_insert.mpr (.inr (h key name hkey))
  | none =>
    obtain ⟨hfields, hkeys⟩ := Logfmt.insert_new value hknown
    rw [hkeys, getElem?_insert] at hkey
    rw [hfields]
    split at hkey
    · cases hkey
      exact Std.ExtTreeMap.mem_insert_self
    · exact Std.ExtTreeMap.mem_insert.mpr (.inr (h key name hkey))

/-- What a pair does to the number of fields and the number of raw keys. -/
theorem insert_sizes {s : Logfmt} (h : s.Stored) (rawKey value : String) :
    (s.Fresh rawKey → ∃ n, (s.insert rawKey value).fields.size = s.fields.size + n ∧
      (s.insert rawKey value).sourceKeys.size = s.sourceKeys.size + n) ∧
    (¬ s.Fresh rawKey → (s.insert rawKey value).fields.size = s.fields.size ∧
      (s.insert rawKey value).sourceKeys.size = s.sourceKeys.size + 1) := by
  cases hknown : s.sourceKeys[rawKey]? with
  | some storageKey =>
    have hmem : rawKey ∈ s.sourceKeys := by
      rw [Std.ExtTreeMap.mem_iff_isSome_getElem?, hknown]
      rfl
    rw [Logfmt.insert_known value hknown, Std.ExtTreeMap.size_insert,
      if_pos (Std.ExtTreeMap.contains_iff_mem.mpr (h rawKey storageKey hknown))]
    exact ⟨fun _ => ⟨0, rfl, rfl⟩, fun hfresh => absurd (.inl hmem) hfresh⟩
  | none =>
    have hmem : rawKey ∉ s.sourceKeys := by
      rw [Std.ExtTreeMap.mem_iff_isSome_getElem?, hknown]
      exact Bool.false_ne_true
    obtain ⟨hfields, hkeys⟩ := Logfmt.insert_new value hknown
    rw [hfields, hkeys, Std.ExtTreeMap.size_insert, Std.ExtTreeMap.size_insert,
      if_neg (mt Std.ExtTreeMap.contains_iff_mem.mp hmem)]
    refine ⟨fun hfresh => ⟨1, if_neg ?_, rfl⟩, fun hfresh => ⟨if_pos ?_, rfl⟩⟩
    · exact mt Std.ExtTreeMap.contains_iff_mem.mp (hfresh.resolve_left hmem)
    · by_contra hfree
      exact hfresh (.inr (mt Std.ExtTreeMap.contains_iff_mem.mpr hfree))

theorem insertPairs_short {s : Logfmt} (h : s.Stored) {pairs : List (String × String)}
    (hsize : s.fields.size < s.sourceKeys.size ∨ s.fields.size ≤ s.sourceKeys.size ∧ ¬ s.FreshAll pairs) :
    (s.insertPairs pairs).fields.size < (s.insertPairs pairs).sourceKeys.size := by
  induction pairs generalizing s with
  | nil => exact hsize.resolve_right fun hnot => hnot.2 trivial
  | cons pair pairs ih =>
    obtain ⟨hkeep, hlose⟩ := insert_sizes h pair.1 pair.2
    rw [show s.insertPairs (pair :: pairs) = (s.insert pair.1 pair.2).insertPairs pairs from rfl]
    refine ih (h.insert pair.1 pair.2) ?_
    by_cases hfresh : s.Fresh pair.1
    · obtain ⟨n, hfields, hkeys⟩ := hkeep hfresh
      refine hsize.imp (fun hlt => by omega) fun ⟨hle, hnot⟩ => ⟨by omega, fun hrest => hnot ⟨hfresh, hrest⟩⟩
    · obtain ⟨hfields, hkeys⟩ := hlose hfresh
      exact .inl (by rcases hsize with hlt | ⟨hle, -⟩ <;> omega)

theorem Sourced.insertPairs {s : Logfmt} {done pairs : List (String × String)} (h : s.Sourced done) :
    (s.insertPairs pairs).Sourced (done ++ pairs) := by
  induction pairs generalizing s done with
  | nil => simpa [Logfmt.insertPairs] using h
  | cons pair pairs ih =>
    have hrest := ih (h.insert pair.1 pair.2)
    rwa [List.append_assoc] at hrest

theorem size_eq_of_onePerKey {s : Logfmt} {pairs : List (String × String)} (hsourced : s.Sourced pairs)
    (h : OnePerKey pairs s.fields) : s.fields.size = s.sourceKeys.size := by
  obtain ⟨nameOf, happart, hheld⟩ := h
  have hkey (key : String) : key ∈ s.sourceKeys.keys ↔ (lastValue pairs key).isSome := by
    rw [Std.ExtTreeMap.mem_keys, Std.ExtTreeMap.mem_iff_isSome_getElem?, hsourced key]
  have hname (name : String) : name ∈ s.fields.keys ↔ name ∈ s.sourceKeys.keys.map nameOf := by
    simp only [Std.ExtTreeMap.mem_keys, Std.ExtTreeMap.mem_iff_isSome_getElem?, Option.isSome_iff_exists,
      hheld, List.mem_map,
      hkey]
    exact ⟨fun ⟨value, key, hn, hv⟩ => ⟨key, ⟨value, hv⟩, hn⟩, fun ⟨key, ⟨value, hv⟩, hn⟩ => ⟨value, key, hn, hv⟩⟩
  have hnodup : (s.sourceKeys.keys.map nameOf).Nodup :=
    List.Nodup.map_on (fun key hk key' hk' => happart key key' ((hkey key).mp hk) ((hkey key').mp hk'))
      Std.ExtTreeMap.nodup_keys
  have hperm := (List.perm_ext_iff_of_nodup Std.ExtTreeMap.nodup_keys hnodup).mpr hname
  simpa using hperm.length_eq

/-- A line gives one field for each raw key exactly when every new raw key finds a free name. -/
theorem onePerKey_iff_freshAll (pairs : List (String × String)) :
    OnePerKey pairs ((⟨∅, ∅, ∅⟩ : Logfmt).insertPairs pairs).fields ↔ (⟨∅, ∅, ∅⟩ : Logfmt).FreshAll pairs := by
  constructor
  · intro h
    by_contra hnot
    have hstored : (⟨∅, ∅, ∅⟩ : Logfmt).Stored := fun key name hkey => by simp at hkey
    have hshort := insertPairs_short hstored (.inr ⟨le_rfl, hnot⟩)
    have hsize := size_eq_of_onePerKey sourced_empty.insertPairs h
    omega
  · intro hfresh
    have hnamed : (⟨∅, ∅, ∅⟩ : Logfmt).Named [] := ⟨sourced_empty, by simp, by simp⟩
    exact (hnamed.insertPairs hfresh).onePerKey

/-! ## Crowded raw keys -/

theorem freshAll_iff (s : Logfmt) (pairs : List (String × String)) :
    s.FreshAll pairs ↔ ∀ done rawKey value rest, pairs = done ++ (rawKey, value) :: rest →
      (s.insertPairs done).Fresh rawKey := by
  induction pairs generalizing s with
  | nil => simp [FreshAll]
  | cons pair pairs ih =>
    rw [FreshAll, ih]
    constructor
    · rintro ⟨hfirst, hrest⟩ done rawKey value rest hsplit
      cases done with
      | nil =>
        cases hsplit
        exact hfirst
      | cons first done =>
        obtain ⟨rfl, htail⟩ := List.cons.inj hsplit
        exact hrest done rawKey value rest htail
    · intro h
      exact ⟨h [] pair.1 pair.2 pairs rfl, fun done rawKey value rest hsplit =>
        h (pair :: done) rawKey value rest (by rw [hsplit]; rfl)⟩

/-- The name for a sanitized key, and the numbers after the look at it. -/
theorem storageKey_takes (s : Logfmt) (key : String) :
    Takes s.nextSuffix (observeExtractedName (s.storageKey key).2 (s.storageKey key).1) key (s.storageKey key).1 := by
  rw [storageKey]
  split
  · dsimp only
    split
    · exact (insert_takes_numbered _ _).observe
    · exact (insert_takes_extractedBase _ _).observe
  · exact observe_takes _ _

/-- The numbers are past those of the fields, and the names of the raw keys are fields. -/
structure Kept (s : Logfmt) : Prop where
  counted : Counted s.fields s.nextSuffix
  stored : s.Stored

theorem kept_empty : Kept ⟨∅, ∅, ∅⟩ := ⟨counted_empty, fun key name hkey => by simp at hkey⟩

theorem insert_new_nextSuffix {s : Logfmt} {rawKey : String} (value : String) (h : s.sourceKeys[rawKey]? = none) :
    (s.insert rawKey value).nextSuffix = observeExtractedName (s.storageKey (sanitizeFieldName rawKey)).2
      (s.storageKey (sanitizeFieldName rawKey)).1 := by
  rw [insert, h]

theorem Kept.insert {s : Logfmt} (h : s.Kept) (rawKey value : String) : (s.insert rawKey value).Kept := by
  refine ⟨?_, h.stored.insert rawKey value⟩
  cases hknown : s.sourceKeys[rawKey]? with
  | some storageKey =>
    rw [Logfmt.insert_known value hknown]
    intro name hname
    rcases Std.ExtTreeMap.mem_insert.mp hname with heq | hmem
    · exact Std.LawfulEqCmp.eq_of_compare heq ▸ h.counted _ (h.stored rawKey storageKey hknown)
    · exact h.counted name hmem
  | none =>
    rw [(Logfmt.insert_new value hknown).1, insert_new_nextSuffix value hknown]
    exact h.counted.takes (s.storageKey_takes _)

theorem Kept.insertPairs {s : Logfmt} (h : s.Kept) (pairs : List (String × String)) : (s.insertPairs pairs).Kept := by
  induction pairs generalizing s with
  | nil => exact h
  | cons pair pairs ih => exact ih (h.insert pair.1 pair.2)

theorem Kept.fresh_iff {s : Logfmt} (h : s.Kept) (rawKey : String) :
    s.Fresh rawKey ↔ rawKey ∈ s.sourceKeys ∨ ¬ Crowded s.fields (sanitizeFieldName rawKey) := by
  refine or_congr_right (not_congr ?_)
  generalize sanitizeFieldName rawKey = key
  rw [storageKey]
  split
  next hkey =>
    dsimp only
    split
    next hbase =>
      constructor
      · intro htaken
        exact ⟨hkey, hbase, h.counted.greatest htaken le_rfl ▸ htaken⟩
      · rintro ⟨-, -, hlast⟩
        have hcounter := h.counted _ hlast _ _ (numberedParts_numbered key _)
        rwa [le_antisymm (Usize.le_greatest (s.nextSuffix.getD (extractedBase key) 2))
          ((Usize.le_saturatingSucc _).trans hcounter)]
    next hbase => exact ⟨fun h => absurd h hbase, fun h => absurd h.2.1 hbase⟩
  next hkey => exact ⟨fun h => absurd h hkey, fun h => absurd h.1 hkey⟩

theorem lastValue_isSome {pairs : List (String × String)} {key : String} :
    (lastValue pairs key).isSome ↔ key ∈ pairs.map Prod.fst := by
  rw [lastValue, Option.isSome_map, List.find?_isSome]
  simp

/-- No raw key meets a crowded name when it is seen first. -/
def Uncrowded (pairs : List (String × String)) : Prop :=
  ∀ done rawKey value rest, pairs = done ++ (rawKey, value) :: rest → rawKey ∉ done.map Prod.fst →
    ¬ Crowded ((⟨∅, ∅, ∅⟩ : Logfmt).insertPairs done).fields (sanitizeFieldName rawKey)

/-- **A line gives one field for each raw key exactly when none meets a crowded name.** -/
theorem onePerKey_iff (pairs : List (String × String)) :
    OnePerKey pairs ((⟨∅, ∅, ∅⟩ : Logfmt).insertPairs pairs).fields ↔ Uncrowded pairs := by
  rw [onePerKey_iff_freshAll, freshAll_iff]
  refine forall_congr' fun done => forall_congr' fun rawKey => forall_congr' fun value => forall_congr' fun rest =>
    imp_congr_right fun _ => ?_
  have hsourced : ((⟨∅, ∅, ∅⟩ : Logfmt).insertPairs done).Sourced ([] ++ done) := sourced_empty.insertPairs
  rw [(kept_empty.insertPairs done).fresh_iff, Std.ExtTreeMap.mem_iff_isSome_getElem?, hsourced rawKey,
    List.nil_append, lastValue_isSome]
  exact or_iff_not_imp_left

theorem uncrowded_of_roomy {pairs : List (String × String)}
    (h : Roomy ∅ (pairs.map fun pair => sanitizeFieldName pair.1)) :
    Uncrowded pairs := by
  suffices hreached : ∀ (s : Logfmt) (done rest : List (String × String)), Roomy s.nextSuffix
      ((done ++ rest).map fun pair => sanitizeFieldName pair.1) →
        Roomy (s.insertPairs done).nextSuffix (rest.map fun pair => sanitizeFieldName pair.1) by
    rintro done rawKey value rest rfl -
    exact (hreached ⟨∅, ∅, ∅⟩ done _ h).not_crowded (kept_empty.insertPairs done).counted
  intro s done rest
  induction done generalizing s with
  | nil => exact id
  | cons pair done ih =>
    intro hroomy
    refine ih (s.insert pair.1 pair.2) ?_
    cases hknown : s.sourceKeys[pair.1]? with
    | some storageKey =>
      rw [Logfmt.insert_known pair.2 hknown]
      exact hroomy.tail
    | none =>
      rw [insert_new_nextSuffix pair.2 hknown]
      exact hroomy.takes (s.storageKey_takes _)

end Logfmt

/-! ## Whole stages -/

/-- **Extraction ends and loses nothing exactly when no name is crowded**: when no insertion finds the name, its end and
the end with the greatest number all taken. The `json` stage then has one field for each scalar, a merge keeps the
fields of before and adds every value whose name is not shadowed, and the `logfmt` stage has one field for each raw key.
So it is for all names whose numbers are below the greatest one by more than there are names. -/
theorem extraction_complete_iff (line : String) :
    (∀ (parse : String → Option Value) (value : Value), parse line = some value → value.Compound →
      ((∃ fuel fields, extractJson parse fuel line = some (.ok fields) ∧
        (fields.toList.map Prod.snd).Perm value.scalars) ↔ Uncrowded ⟨∅, ∅⟩ (flattenValue "" value)) ∧
      (Roomy ∅ ((flattenValue "" value).map Prod.fst) → Uncrowded ⟨∅, ∅⟩ (flattenValue "" value))) ∧
    (∀ s : Extracted, Counted s.fields s.nextSuffix →
      ∀ (shadowedByMetadata : Std.ExtTreeSet String compare) (extracted : Labels),
        ((∃ fuel s', mergeExtracted fuel s shadowedByMetadata extracted = some s' ∧
          Grown s.fields ((unshadowed shadowedByMetadata extracted).map Prod.snd) s'.fields) ↔
            Uncrowded s (unshadowed shadowedByMetadata extracted)) ∧
        (Roomy s.nextSuffix ((unshadowed shadowedByMetadata extracted).map Prod.fst) →
          Uncrowded s (unshadowed shadowedByMetadata extracted))) ∧
    ∀ pairs : List (String × String), logfmtPairs line.toList = some pairs →
      ((∃ fields, extractLogfmt line = .ok fields ∧ OnePerKey pairs fields) ↔ Logfmt.Uncrowded pairs) ∧
      (Roomy ∅ (pairs.map fun pair => sanitizeFieldName pair.1) → Logfmt.Uncrowded pairs) := by
  refine ⟨fun parse value h hcompound => ⟨extractJson_iff h hcompound, uncrowded_of_roomy (s := ⟨∅, ∅⟩) counted_empty⟩,
    fun s hcounted shadowedByMetadata extracted => ⟨insertAll_grows hcounted _, uncrowded_of_roomy hcounted⟩,
    fun pairs hpairs => ⟨?_, Logfmt.uncrowded_of_roomy⟩⟩
  rw [← Logfmt.onePerKey_iff, extractLogfmt, hpairs]
  simp

/-- An object with two names for the field `x_y_0`. -/
def clashing : Value :=
  .object [("x_y", .number "1"), ("x_y_0", .string "z"), ("x~y", .array [.bool true, .null])]

/-- The fields of a row with a label `x_y`, and what was taken from a line, with a name that metadata has. -/
def labelled : Labels := (∅ : Labels).insert "x_y" "label"

def clashingFields : Labels := ((∅ : Labels).insert "x_y" "1").insert "x_y_0" "z" |>.insert "x_y_extracted" "2"

/-- Names that clash, in each of the stages and in a merge, with a name that is shadowed and a raw key that is given
twice. -/
theorem extraction_complete_clashing :
    (∃ fuel fields, extractJson (fun _ => some clashing) fuel "x_y=1 x~y=2 x_y=3" = some (.ok fields) ∧
      (fields.toList.map Prod.snd).Perm ["1", "z", "true", ""]) ∧
    (∃ fuel s', mergeExtracted fuel (.start labelled) (Std.ExtTreeSet.ofList ["x_y_0"]) clashingFields = some s' ∧
      Grown labelled ["1", "2"] s'.fields) ∧
    ∃ fields, extractLogfmt "x_y=1 x~y=2 x_y=3" = .ok fields ∧ OnePerKey [("x_y", "1"), ("x~y", "2"), ("x_y", "3")]
      fields := by
  obtain ⟨hjson, hmerge, hlogfmt⟩ := extraction_complete_iff "x_y=1 x~y=2 x_y=3"
  obtain ⟨hjson, hroom⟩ := hjson (fun _ => some clashing) clashing rfl trivial
  obtain ⟨hmerge, hroom'⟩ := hmerge (.start labelled) (Extracted.counted_start _) (Std.ExtTreeSet.ofList ["x_y_0"])
    clashingFields
  obtain ⟨hlogfmt, hroom''⟩ := hlogfmt [("x_y", "1"), ("x~y", "2"), ("x_y", "3")] (by decide +kernel)
  refine ⟨hjson.mpr (hroom (roomy_of_plain ?_ ?_)), ?_, hlogfmt.mpr (hroom'' (roomy_of_plain ?_ ?_))⟩
  · decide +kernel
  · decide +kernel
  · have hvalues : (unshadowed (Std.ExtTreeSet.ofList ["x_y_0"]) clashingFields).map Prod.snd = ["1", "2"] := by
      decide +kernel
    rw [← hvalues]
    exact hmerge.mpr (hroom' (roomy_of_plain (by decide +kernel) (by decide +kernel)))
  · decide +kernel
  · decide +kernel

/-- Two raw names for one sanitized name, with its end and the greatest number taken. -/
def crowded : List (String × Value) :=
  [("x_y", .number "1"), ("x_y_extracted", .number "2"), ("x_y_extracted_18446744073709551615", .number "3"),
    ("x~y", .number "4")]

/-- The fields and numbers before the last of them. -/
def crowdedState : Extracted where
  fields :=
    ((∅ : Labels).insert "x_y" "1").insert "x_y_extracted" "2" |>.insert "x_y_extracted_18446744073709551615" "3"
  nextSuffix := observeExtractedName (observeExtractedName (observeExtractedName ∅ "x_y") "x_y_extracted")
    "x_y_extracted_18446744073709551615"

theorem crowdedState_crowded : Crowded crowdedState.fields "x_y" := by
  unfold Crowded
  decide +kernel

theorem extraction_incomplete :
    (∃ parse line value, parse line = some value ∧ value.Compound ∧ ∀ fuel, extractJson parse fuel line = none) ∧
      ∃ line pairs fields, logfmtPairs line.toList = some pairs ∧ extractLogfmt line = .ok fields ∧
        ¬ OnePerKey pairs fields := by
  refine ⟨⟨fun _ => some (.object crowded), "", .object crowded, rfl, trivial, fun fuel => ?_⟩, ?_⟩
  · have hpairs : flattenValue "" (.object crowded) = [("x_y", "1"), ("x_y_extracted", "2"),
        ("x_y_extracted_18446744073709551615", "3"), ("x_y", "4")] := by decide +kernel
    have hnone : insertAll fuel ⟨∅, ∅⟩ (flattenValue "" (.object crowded)) = none := by
      by_contra hsome
      obtain ⟨s', hs'⟩ := Option.ne_none_iff_exists'.mp hsome
      rw [hpairs] at hs'
      have hrun := (insertAll_ends counted_empty _).mp ⟨fuel, s', hs'⟩
      refine hrun [("x_y", "1"), ("x_y_extracted", "2"), ("x_y_extracted_18446744073709551615", "3")] "x_y" "4" [] rfl 0
        crowdedState ?_ crowdedState_crowded
      rw [insertAll_cons_free (by decide +kernel), insertAll_cons_free (by decide +kernel),
        insertAll_cons_free (by decide +kernel)]
      rfl
    rw [@extractJson_compound (fun _ => some (.object crowded)) "" (.object crowded) rfl trivial fuel, hnone]
    rfl
  · have hpairs : logfmtPairs "x_y=1 x_y_extracted=2 x_y_extracted_18446744073709551615=3 x~y=4".toList =
        some [("x_y", "1"), ("x_y_extracted", "2"), ("x_y_extracted_18446744073709551615", "3"), ("x~y", "4")] := by
      decide +kernel
    refine ⟨_, _, _, hpairs, by rw [extractLogfmt, hpairs], fun h => ?_⟩
    have hsize := Logfmt.size_eq_of_onePerKey Logfmt.sourced_empty.insertPairs h
    revert hsize
    decide +kernel

end Signy
