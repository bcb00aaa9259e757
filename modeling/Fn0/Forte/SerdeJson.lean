/-
A parser and a deserializer that do what `serde_json` is known to do.
-/
import Mathlib
import Fn0.Forte.JsonText

namespace Forte

/-! ## Parsing -/

/-- What follows the separator that is due. -/
def afterSeparator : Bool → List Token → Option (List Token)
  | true, tokens => some tokens
  | false, .comma :: tokens => some tokens
  | false, _ => none

mutual
/-- A value and the tokens after it. The first argument only bounds the number of steps, and the second one is counted
down at each array and object. -/
def parseValue : Nat → Nat → List Token → Option (Json × List Token)
  | _ + 1, _, .null :: tokens => some (.null, tokens)
  | _ + 1, _, .bool b :: tokens => some (.bool b, tokens)
  | _ + 1, _, .int n :: tokens => some (.num n, tokens)
  | _ + 1, _, .string s :: tokens => some (.str s, tokens)
  | fuel + 1, depth, .openBracket :: tokens =>
    if depth - 1 = 0 then none
    else (parseElements fuel (depth - 1) true tokens).map fun (items, rest) => (.arr items, rest)
  | fuel + 1, depth, .openBrace :: tokens =>
    if depth - 1 = 0 then none
    else (parseEntries fuel (depth - 1) true tokens).map fun (entries, rest) => (.obj (collect entries), rest)
  | _, _, _ => none

def parseElements : Nat → Nat → Bool → List Token → Option (List Json × List Token)
  | _ + 1, _, _, .closeBracket :: tokens => some ([], tokens)
  | fuel + 1, depth, first, tokens => do
    let tokens ← afterSeparator first tokens
    let (item, tokens) ← parseValue fuel depth tokens
    let (items, tokens) ← parseElements fuel depth false tokens
    some (item :: items, tokens)
  | 0, _, _, _ => none

def parseEntries : Nat → Nat → Bool → List Token → Option (List (String × Json) × List Token)
  | _ + 1, _, _, .closeBrace :: tokens => some ([], tokens)
  | fuel + 1, depth, first, tokens =>
    match afterSeparator first tokens with
    | some (.string key :: .colon :: tokens) => do
      let (value, tokens) ← parseValue fuel depth tokens
      let (entries, tokens) ← parseEntries fuel depth false tokens
      some ((key, value) :: entries, tokens)
    | _ => none
  | 0, _, _, _ => none
end

/-- A text is one value and nothing after it. -/
def parse (tokens : List Token) : Option Json :=
  match parseValue (2 * tokens.length) remainingDepth tokens with
  | some (value, []) => some value
  | _ => none

/-! ## Deserializing -/

mutual
/-- `serde_json::from_value`: keys that no field has are ignored. -/
def fromValue : Ty → Json → Option Val
  | .bool, .bool b => some (.bool b)
  | .int signed bits, .num n => if inRange signed bits n then some (.int n) else none
  | .str, .str s => some (.str s)
  | .option _, .null => some .none
  | .option t, value => (fromValue t value).map .some
  | .seq t, .arr items => (items.mapM (fromValue t)).map .seq
  | .tuple ts, .arr items => (fromItems ts items).map .tuple
  | .struct fields, .obj entries => (fromFields fields entries).map .struct
  | .map t, .obj entries => (entries.mapM fun entry => (fromValue t entry.2).map (entry.1, ·)).map .map
  | _, _ => none

def fromItems : List Ty → List Json → Option (List Val)
  | [], [] => some []
  | t :: ts, item :: items => do
    let v ← fromValue t item
    (fromItems ts items).map (v :: ·)
  | _, _ => none

def fromFields : List (String × Ty) → List (String × Json) → Option (List (String × Val))
  | [], _ => some []
  | (name, t) :: fields, entries => do
    let v ←
      match entries.lookup name with
      | some value => fromValue t value
      | none => missingField t
    (fromFields fields entries).map ((name, v) :: ·)
end

def serdeJson : SerdeJson := ⟨parse, fromValue⟩

/-! ## It reads every text -/

/-- The tokens are read as the value, whatever follows them, unless they are nested too deeply. -/
structure Piece.Reads (piece : Piece) : Prop where
  starts : ∃ token rest, piece.tokens = token :: rest ∧ token ≠ .closeBracket
  parses : ∀ fuel remaining rest, 0 < remaining → 2 * piece.tokens.length ≤ fuel →
    parseValue fuel remaining (piece.tokens ++ rest) = if piece.depth < remaining then some
      (piece.value, rest) else none

theorem reads_scalar {token : Token} {value : Json} (hne : token ≠ .closeBracket)
    (h : ∀ fuel remaining rest, parseValue (fuel + 1) remaining (token :: rest) = some (value, rest)) :
    Piece.Reads ⟨[token], 0, value⟩ := by
  refine ⟨⟨token, [], rfl, hne⟩, fun fuel remaining rest hpos hfuel => ?_⟩
  obtain ⟨fuel, rfl⟩ : ∃ n, fuel = n + 1 := ⟨fuel - 1, by simp at hfuel; omega⟩
  rw [if_pos hpos]
  exact h fuel remaining rest

def State.isEmpty : State → Bool
  | empty => true
  | _ => false

theorem afterSeparator_separator (state : State) (tokens : List Token) :
    afterSeparator state.isEmpty (state.advance.separator ++ tokens) = some tokens := by
  cases state <;> rfl

theorem isEmpty_advance (state : State) : state.advance.isEmpty = false := by cases state <;> rfl

theorem parseElements_close {fuel remaining : Nat} {first : Bool} {tokens : List Token} :
    parseElements (fuel + 1) remaining first (.closeBracket :: tokens) = some ([], tokens) := rfl

theorem parseEntries_close {fuel remaining : Nat} {first : Bool} {tokens : List Token} :
    parseEntries (fuel + 1) remaining first (.closeBrace :: tokens) = some ([], tokens) := rfl

theorem parseElements_of_ne {fuel remaining : Nat} {first : Bool} {token : Token} {tokens : List Token}
    (h : token ≠ .closeBracket) :
    parseElements (fuel + 1) remaining first (token :: tokens) =
      (afterSeparator first (token :: tokens)).bind fun tokens =>
        (parseValue fuel remaining tokens).bind fun (item, tokens) =>
          (parseElements fuel remaining false tokens).bind fun (items, tokens) => some (item :: items, tokens) := by
  cases token <;> first | rfl | exact absurd rfl h

theorem parseEntries_of_ne {fuel remaining : Nat} {first : Bool} {token : Token} {tokens : List Token} {key : String}
    (h : token ≠ .closeBrace) {rest : List Token}
    (hkey : afterSeparator first (token :: tokens) = some (.string key :: .colon :: rest)) :
    parseEntries (fuel + 1) remaining first (token :: tokens) =
      (parseValue fuel remaining rest).bind fun (value, tokens) =>
        (parseEntries fuel remaining false tokens).bind fun (entries, tokens) =>
          some ((key, value) :: entries, tokens) := by
  cases token <;> first | exact absurd rfl h | (simp only [parseEntries, hkey]; rfl)

theorem parseElements_serialize {pieces : List Piece} (hp : ∀ piece ∈ pieces, piece.Reads) {remaining : Nat}
    (hpos : 0 < remaining) (state : State) (rest : List Token) (fuel : Nat)
    (hfuel : 2 * (serializeElements state (pieces.map (·.tokens))).length + 1 ≤ fuel) :
    parseElements fuel remaining state.isEmpty
        (serializeElements state (pieces.map (·.tokens)) ++ .closeBracket :: rest) =
      if ∀ piece ∈ pieces, piece.depth < remaining then some (pieces.map (·.value), rest) else none := by
  induction pieces generalizing state fuel with
  | nil =>
    obtain ⟨fuel, rfl⟩ : ∃ n, fuel = n + 1 := ⟨fuel - 1, by omega⟩
    simp [serializeElements, parseElements_close]
  | cons piece pieces ih =>
    obtain ⟨hpiece, hpieces⟩ := List.forall_mem_cons.mp hp
    obtain ⟨fuel, rfl⟩ : ∃ n, fuel = n + 1 := ⟨fuel - 1, by omega⟩
    simp only [List.map_cons, serializeElements, List.append_assoc, List.length_append] at hfuel ⊢
    obtain ⟨token, tail, htokens, hne⟩ := hpiece.starts
    have hsep := afterSeparator_separator state
      (piece.tokens ++ (serializeElements state.advance (pieces.map (·.tokens)) ++ .closeBracket :: rest))
    -- the text goes on with a separator or with the element, and neither closes the sequence
    obtain ⟨head, more, hhead, hne⟩ : ∃ head more, state.advance.separator ++ (piece.tokens ++
        (serializeElements state.advance (pieces.map (·.tokens)) ++ .closeBracket :: rest)) = head :: more ∧
        head ≠ .closeBracket := by
      cases state with
      | empty => exact ⟨token, _, by rw [htokens]; rfl, hne⟩
      | first | rest => exact ⟨.comma, _, rfl, (by simp)⟩
    have hlen : 1 ≤ piece.tokens.length := by rw [htokens]; simp
    rw [hhead] at hsep ⊢
    rw [parseElements_of_ne hne, hsep, Option.bind_some, hpiece.parses fuel remaining _ hpos (by omega)]
    have hrest := ih hpieces state.advance fuel (by omega)
    rw [isEmpty_advance] at hrest
    simp only [List.forall_mem_cons]
    by_cases hd : piece.depth < remaining
    · simp only [hd, if_true, true_and, Option.bind_some, hrest]
      split <;> rfl
    · simp only [hd, if_false, false_and, Option.bind_none]

theorem parseEntries_serialize {pieces : List (String × Piece)} (hp : ∀ piece ∈ pieces, piece.2.Reads) {remaining : Nat}
    (hpos : 0 < remaining) (state : State) (rest : List Token) (fuel : Nat)
    (hfuel : 2 * (serializeEntries state (pieces.map fun piece => (piece.1, piece.2.tokens))).length + 1 ≤ fuel) :
    parseEntries fuel remaining state.isEmpty
        (serializeEntries state (pieces.map fun piece => (piece.1, piece.2.tokens)) ++ .closeBrace :: rest) =
      if ∀ piece ∈ pieces, piece.2.depth < remaining then some (pieces.map fun piece => (piece.1, piece.2.value), rest)
      else none := by
  induction pieces generalizing state fuel with
  | nil =>
    obtain ⟨fuel, rfl⟩ : ∃ n, fuel = n + 1 := ⟨fuel - 1, by omega⟩
    simp [serializeEntries, parseEntries_close]
  | cons piece pieces ih =>
    obtain ⟨hpiece, hpieces⟩ := List.forall_mem_cons.mp hp
    obtain ⟨fuel, rfl⟩ : ∃ n, fuel = n + 1 := ⟨fuel - 1, by omega⟩
    simp only [List.map_cons, serializeEntries, List.append_assoc, List.length_append, List.cons_append,
      List.nil_append, List.length_cons] at hfuel ⊢
    have hsep := afterSeparator_separator state (.string piece.1 :: .colon :: (piece.2.tokens ++
      (serializeEntries state.advance (pieces.map fun piece => (piece.1, piece.2.tokens)) ++ .closeBrace :: rest)))
    obtain ⟨head, more, hhead, hne⟩ : ∃ head more, state.advance.separator ++ (.string piece.1 :: .colon ::
        (piece.2.tokens ++ (serializeEntries state.advance (pieces.map fun piece => (piece.1, piece.2.tokens)) ++
          .closeBrace :: rest))) = head :: more ∧ head ≠ .closeBrace := by
      cases state with
      | empty => exact ⟨_, _, rfl, (by simp)⟩
      | first | rest => exact ⟨.comma, _, rfl, (by simp)⟩
    rw [hhead] at hsep ⊢
    rw [parseEntries_of_ne hne hsep, hpiece.parses fuel remaining _ hpos (by omega)]
    have hrest := ih hpieces state.advance fuel (by omega)
    rw [isEmpty_advance] at hrest
    simp only [List.forall_mem_cons]
    by_cases hd : piece.2.depth < remaining
    · simp only [hd, if_true, true_and, Option.bind_some, hrest]
      split <;> rfl
    · simp only [hd, if_false, false_and, Option.bind_none]

theorem foldr_max_lt {depths : List Nat} {n : Nat} (hn : 0 < n) : depths.foldr max 0 < n ↔
    ∀ depth ∈ depths, depth < n := by
  induction depths with
  | nil => simpa using hn
  | cons depth depths ih => simp [ih]

theorem reads_arr {pieces : List Piece} (h : ∀ piece ∈ pieces, piece.Reads) :
    Piece.Reads
      { tokens := .openBracket :: ([.comma].intercalate (pieces.map (·.tokens)) ++ [.closeBracket])
        depth := (pieces.map (·.depth)).foldr max 0 + 1
        value := .arr (pieces.map (·.value)) } := by
  refine ⟨⟨_, _, rfl, (by simp)⟩, fun fuel remaining rest hpos hfuel => ?_⟩
  dsimp only at hfuel ⊢
  rw [← serializeElements_empty] at hfuel ⊢
  obtain ⟨fuel, rfl⟩ : ∃ n, fuel = n + 1 := ⟨fuel - 1, by simp at hfuel; omega⟩
  simp only [List.length_cons, List.length_append, List.length_nil] at hfuel
  rw [List.cons_append, List.append_assoc, parseValue]
  by_cases hone : remaining - 1 = 0
  · rw [if_pos hone, if_neg (by omega)]
  · have hparse := parseElements_serialize h (by omega : 0 < remaining - 1) .empty rest fuel (by omega)
    rw [if_neg hone, List.singleton_append, show (true : Bool) = State.empty.isEmpty from rfl, hparse]
    have hdepth : (∀ piece ∈ pieces, piece.depth < remaining - 1) ↔
        (pieces.map (·.depth)).foldr max 0 + 1 < remaining := by
      rw [← Nat.lt_sub_iff_add_lt, foldr_max_lt (by omega), List.forall_mem_map]
    simp only [hdepth]
    split <;> rfl

theorem reads_obj {pieces : List (String × Piece)} (h : ∀ piece ∈ pieces, piece.2.Reads) :
    Piece.Reads
      { tokens := .openBrace :: ([.comma].intercalate
          (pieces.map fun piece => .string piece.1 :: .colon :: piece.2.tokens) ++ [.closeBrace])
        depth := (pieces.map (·.2.depth)).foldr max 0 + 1
        value := .obj (collect (pieces.map fun piece => (piece.1, piece.2.value))) } := by
  refine ⟨⟨_, _, rfl, (by simp)⟩, fun fuel remaining rest hpos hfuel => ?_⟩
  have hentries : [Token.comma].intercalate (pieces.map fun piece => .string piece.1 :: .colon :: piece.2.tokens) =
      serializeEntries .empty (pieces.map fun piece => (piece.1, piece.2.tokens)) := by
    rw [serializeEntries_eq, serializeElements_empty, List.map_map]
    rfl
  dsimp only at hfuel ⊢
  rw [hentries] at hfuel ⊢
  obtain ⟨fuel, rfl⟩ : ∃ n, fuel = n + 1 := ⟨fuel - 1, by simp at hfuel; omega⟩
  simp only [List.length_cons, List.length_append, List.length_nil] at hfuel
  rw [List.cons_append, List.append_assoc, parseValue]
  by_cases hone : remaining - 1 = 0
  · rw [if_pos hone, if_neg (by omega)]
  · have hparse := parseEntries_serialize h (by omega : 0 < remaining - 1) .empty rest fuel (by omega)
    rw [if_neg hone, List.singleton_append, show (true : Bool) = State.empty.isEmpty from rfl, hparse]
    have hdepth : (∀ piece ∈ pieces, piece.2.depth < remaining - 1) ↔
        (pieces.map (·.2.depth)).foldr max 0 + 1 < remaining := by
      rw [← Nat.lt_sub_iff_add_lt, foldr_max_lt (by omega), List.forall_mem_map]
    simp only [hdepth]
    split <;> rfl

theorem reads_of_isText {piece : Piece} (h : IsText piece) : piece.Reads := by
  induction h with
  | null => exact reads_scalar (by simp) fun _ _ _ => rfl
  | bool b => exact reads_scalar (by simp) fun _ _ _ => rfl
  | int n => exact reads_scalar (by simp) fun _ _ _ => rfl
  | str s => exact reads_scalar (by simp) fun _ _ _ => rfl
  | arr pieces _ ih => exact reads_arr ih
  | obj pieces _ ih => exact reads_obj ih

theorem parse_of_isText {piece : Piece} (h : IsText piece) :
    parse piece.tokens = if piece.depth < remainingDepth then some piece.value else none := by
  have hparse := (reads_of_isText h).parses _ remainingDepth [] (by decide) le_rfl
  rw [List.append_nil] at hparse
  rw [parse, hparse]
  by_cases hd : piece.depth < remainingDepth
  · rw [if_pos hd, if_pos hd]
  · rw [if_neg hd, if_neg hd]

/-! ## It deserializes by the type -/

theorem mapM_eq_some {α β : Type} {f : α → Option β} {as : List α} {bs : List β} :
    as.mapM f = some bs ↔ List.Forall₂ (fun a b => f a = some b) as bs := by
  induction as generalizing bs with
  | nil => cases bs <;> simp
  | cons a as ih =>
    cases bs with
    | nil => simp [Option.bind_eq_some_iff]
    | cons b bs => simp [Option.bind_eq_some_iff, ih, List.forall₂_cons]

theorem fromItems_eq_some {ts : List Ty} {items : List Json} {vs : List Val} :
    fromItems ts items = some vs ↔
      ts.length = items.length ∧ List.Forall₂ (fun pair v => fromValue pair.1 pair.2 = some v) (ts.zip items) vs := by
  induction ts generalizing items vs with
  | nil => cases items <;> cases vs <;> simp [fromItems]
  | cons t ts ih =>
    cases items with
    | nil => simp [fromItems]
    | cons item items => cases vs <;> simp [fromItems, Option.bind_eq_some_iff, ih, and_left_comm]

theorem fromFields_eq_some {fields : List (String × Ty)} {entries : List (String × Json)}
    {values : List (String × Val)} :
    fromFields fields entries = some values ↔ List.Forall₂
      (fun field value => field.1 = value.1 ∧ serdeJson.fieldValue entries field = some value.2) fields values := by
  induction fields generalizing values with
  | nil => cases values <;> simp [fromFields]
  | cons field fields ih =>
    have hstep : fromFields (field :: fields) entries =
        (serdeJson.fieldValue entries field).bind fun v => (fromFields fields entries).map ((field.1, v) :: ·) := by
      rw [fromFields, SerdeJson.fieldValue]
      cases entries.lookup field.1 <;> rfl
    cases values with
    | nil => simp [hstep, Option.bind_eq_some_iff]
    | cons value values =>
      simp only [hstep, Option.bind_eq_some_iff, Option.map_eq_some_iff, List.forall₂_cons, ← ih, List.cons.injEq]
      constructor
      · rintro ⟨v, hv, values', hvalues, rfl, rfl⟩
        exact ⟨⟨rfl, hv⟩, hvalues⟩
      · rintro ⟨⟨hname, hv⟩, hvalues⟩
        exact ⟨_, hv, _, hvalues, Prod.ext hname rfl, rfl⟩

theorem serdeJson_laws : serdeJson.Laws where
  parse _ h := parse_of_isText h
  bool _ := rfl
  int signed bits n := by simp [serdeJson, fromValue]
  str _ := rfl
  optionNull _ := rfl
  option t value v hne := by
    have hstep : fromValue (.option t) value = (fromValue t value).map .some := by
      cases value <;> first | rfl | exact absurd rfl hne
    simp [serdeJson, hstep]
  seq t items vs := by simp [serdeJson, fromValue, mapM_eq_some]
  tuple ts items vs := by simp [serdeJson, fromValue, fromItems_eq_some]
  struct fields entries values := by
    rw [← fromFields_eq_some]
    simp [serdeJson, fromValue]
  map t entries values := by
    simp only [serdeJson, fromValue, Option.map_eq_some_iff, Val.map.injEq, exists_eq_right, mapM_eq_some]
    refine iff_of_eq (congrArg (List.Forall₂ · entries values) (funext₂ fun entry value => propext ?_))
    constructor
    · rintro ⟨v, hv, rfl⟩
      exact ⟨rfl, hv⟩
    · rintro ⟨hkey, hv⟩
      exact ⟨_, hv, Prod.ext hkey rfl⟩
  null t v h := by
    cases t <;> simp [serdeJson, fromValue] at h
    exact h.symm
  notStruct _ _ := rfl
  notMap _ _ := rfl

end Forte
