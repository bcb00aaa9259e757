/-
The JSON codec of Forte actions.

A value is written as a text whose struct fields have camelCase names and where a field that is written as `null` is
left out. It is read back by parsing the text, giving every object key its snake_case form, whatever it is the key of,
and deserializing the result at the type that is expected. The text is a list of tokens: how the characters of a string
are escaped is not looked at.
-/
import Mathlib
import Fn0.Lib.OrdMap

namespace Forte

open Std (ExtTreeMap)

/-! ## Names -/

def camelChars : Bool → List Char → List Char
  | _, [] => []
  | capitalizeNext, ch :: rest =>
    if ch = '_' then camelChars true rest
    else if capitalizeNext then ch.toUpper :: camelChars false rest
    else ch :: camelChars false rest

def toCamelCase (s : String) : String := String.ofList (camelChars false s.toList)

/-- The characters from the `i`-th one on. -/
def snakeChars : Nat → List Char → List Char
  | _, [] => []
  | i, ch :: rest =>
    (if ch.isUpper then (if i > 0 then ['_'] else []) ++ [ch.toLower] else [ch]) ++ snakeChars (i + 1) rest

def toSnakeCase (s : String) : String := String.ofList (snakeChars 0 s.toList)

/-! ## Types and values -/

inductive Ty
  | bool
  | int (signed : Bool) (bits : Nat)
  | str
  | option (t : Ty)
  | seq (t : Ty)
  | tuple (ts : List Ty)
  | struct (fields : List (String × Ty))
  | map (t : Ty)

/-- A map is the list of its entries in the order of the keys. -/
inductive Val
  | bool (b : Bool)
  | int (n : Int)
  | str (s : String)
  | none
  | some (v : Val)
  | seq (vs : List Val)
  | tuple (vs : List Val)
  | struct (fields : List (String × Val))
  | map (entries : List (String × Val))

def inRange (signed : Bool) (bits : Nat) (n : Int) : Bool :=
  if signed then decide (-2 ^ (bits - 1) ≤ n ∧ n < 2 ^ (bits - 1)) else decide (0 ≤ n ∧ n < 2 ^ bits)

mutual
def hasTy : Ty → Val → Bool
  | .bool, .bool _ => true
  | .int signed bits, .int n => decide (bits ≤ 64) && inRange signed bits n
  | .str, .str _ => true
  | .option _, .none => true
  | .option t, .some v => hasTy t v
  | .seq t, .seq vs => vs.all (hasTy t)
  | .tuple ts, .tuple vs => haveTys ts vs
  | .struct fields, .struct values => decide (fields.map Prod.fst).Nodup && fieldsHaveTys fields values
  | .map t, .map entries => decide (entries.Pairwise fun a b => a.1 < b.1) && entries.all fun entry => hasTy t entry.2
  | _, _ => false

def haveTys : List Ty → List Val → Bool
  | [], [] => true
  | t :: ts, v :: vs => hasTy t v && haveTys ts vs
  | _, _ => false

def fieldsHaveTys : List (String × Ty) → List (String × Val) → Bool
  | [], [] => true
  | (name, t) :: fields, (name', v) :: values => decide (name = name') && hasTy t v && fieldsHaveTys fields values
  | _, _ => false
end

/-! ## Writing -/

inductive Token
  | openBrace
  | closeBrace
  | openBracket
  | closeBracket
  | comma
  | colon
  | string (s : String)
  | int (n : Int)
  | bool (b : Bool)
  | null
deriving DecidableEq

/-- Where a sequence or an object stands while it is written. -/
inductive State
  | empty
  | first
  | rest
deriving DecidableEq

def State.advance : State → State
  | empty => first
  | first => rest
  | rest => rest

def State.separator : State → List Token
  | first => []
  | _ => [.comma]

def serializeElements : State → List (List Token) → List Token
  | _, [] => []
  | state, value :: values => state.advance.separator ++ value ++ serializeElements state.advance values

def serializeEntries : State → List (String × List Token) → List Token
  | _, [] => []
  | state, (key, value) :: entries =>
    state.advance.separator ++ [.string key, .colon] ++ value ++ serializeEntries state.advance entries

/-- A field whose value is written as `null` is left out and does not count for the separators. -/
def serializeFields : State → List (String × List Token) → List Token
  | _, [] => []
  | state, (key, value) :: fields =>
    if value = [.null] then serializeFields state fields
    else
      state.advance.separator ++ [.string (toCamelCase key), .colon] ++ value ++ serializeFields state.advance fields

section Writing

-- the order in which a map iterates over its entries
variable (order : List (String × List Token) → List (String × List Token))

mutual
def serialize : Val → List Token
  | .bool b => [.bool b]
  | .int n => [.int n]
  | .str s => [.string s]
  | .none => [.null]
  | .some v => serialize v
  | .seq vs => .openBracket :: (serializeElements .empty (serializeAll vs) ++ [.closeBracket])
  | .tuple vs => .openBracket :: (serializeElements .empty (serializeAll vs) ++ [.closeBracket])
  | .struct fields => .openBrace :: (serializeFields .empty (serializeValues fields) ++ [.closeBrace])
  | .map entries => .openBrace :: (serializeEntries .empty (order (serializeValues entries)) ++ [.closeBrace])

def serializeAll : List Val → List (List Token)
  | [] => []
  | v :: vs => serialize v :: serializeAll vs

def serializeValues : List (String × Val) → List (String × List Token)
  | [] => []
  | (key, v) :: entries => (key, serialize v) :: serializeValues entries
end

def toVec (v : Val) : List Token := serialize order v

end Writing

/-! ## Reading -/

/-- `serde_json::Value`. The entries of an object are in the order of their keys. -/
inductive Json
  | null
  | bool (b : Bool)
  | num (n : Int)
  | str (s : String)
  | arr (items : List Json)
  | obj (entries : List (String × Json))

/-- A `serde_json::Map` out of pairs: of two pairs with one key the later one stays. -/
def collect (entries : List (String × Json)) : List (String × Json) := (ExtTreeMap.ofList entries compare).toList

/-- A part of a text, how deep arrays and objects are nested in it, and its value. -/
structure Piece where
  tokens : List Token
  depth : Nat
  value : Json

/-- The texts of JSON values. -/
inductive IsText : Piece → Prop
  | null : IsText ⟨[.null], 0, .null⟩
  | bool (b : Bool) : IsText ⟨[.bool b], 0, .bool b⟩
  | int (n : Int) : IsText ⟨[.int n], 0, .num n⟩
  | str (s : String) : IsText ⟨[.string s], 0, .str s⟩
  | arr (pieces : List Piece) (h : ∀ piece ∈ pieces, IsText piece) :
      IsText
        { tokens := .openBracket :: ([.comma].intercalate (pieces.map (·.tokens)) ++ [.closeBracket])
          depth := (pieces.map (·.depth)).foldr max 0 + 1
          value := .arr (pieces.map (·.value)) }
  | obj (pieces : List (String × Piece)) (h : ∀ piece ∈ pieces, IsText piece.2) :
      IsText
        { tokens := .openBrace :: ([.comma].intercalate
            (pieces.map fun piece => .string piece.1 :: .colon :: piece.2.tokens) ++ [.closeBrace])
          depth := (pieces.map (·.2.depth)).foldr max 0 + 1
          value := .obj (collect (pieces.map fun piece => (piece.1, piece.2.value))) }

/-- How deep `serde_json` reads. -/
def remainingDepth : Nat := 128

/-- An object that stands for a unit variant. -/
def unitVariant : List (String × Json) → Option String
  | [(key, .str variant)] => if key = "t" then some variant else none
  | _ => none

mutual
def transformKeysToSnakeCase : Json → Json
  | .obj entries =>
    match unitVariant entries with
    | some variant => .str (toSnakeCase variant)
    | none => .obj (collect (transformEntries entries))
  | .arr items => .arr (transformItems items)
  | other => other

def transformItems : List Json → List Json
  | [] => []
  | item :: items => transformKeysToSnakeCase item :: transformItems items

def transformEntries : List (String × Json) → List (String × Json)
  | [] => []
  | (key, value) :: entries => (toSnakeCase key, transformKeysToSnakeCase value) :: transformEntries entries
end

/-- The default of a field that is missing. Only a nullable field is declared with one. -/
def missingField : Ty → Option Val
  | .option _ => some .none
  | _ => none

/-- What is used of `serde_json`: `from_slice` to a `Value`, and `from_value`. -/
structure SerdeJson where
  parse : List Token → Option Json
  fromValue : Ty → Json → Option Val

namespace SerdeJson

/-- What a field of a struct is read as. -/
def fieldValue (serde : SerdeJson) (entries : List (String × Json)) (field : String × Ty) : Option Val :=
  match entries.lookup field.1 with
  | some value => serde.fromValue field.2 value
  | none => missingField field.2

/-- What it is known to do. Keys that no field of a struct has are ignored. -/
structure Laws (serde : SerdeJson) : Prop where
  parse : ∀ piece, IsText piece → serde.parse piece.tokens = if piece.depth < remainingDepth
    then some piece.value else none
  bool : ∀ b, serde.fromValue .bool (.bool b) = some (.bool b)
  int : ∀ signed bits n, serde.fromValue (.int signed bits) (.num n) = some (.int n) ↔ inRange signed bits n = true
  str : ∀ s, serde.fromValue .str (.str s) = some (.str s)
  optionNull : ∀ t, serde.fromValue (.option t) .null = some .none
  option : ∀ t value v, value ≠ .null → (serde.fromValue (.option t) value = some (.some v) ↔
    serde.fromValue t value = some v)
  seq : ∀ t items vs, serde.fromValue (.seq t) (.arr items) = some (.seq vs) ↔
    List.Forall₂ (fun item v => serde.fromValue t item = some v) items vs
  tuple : ∀ ts items vs, serde.fromValue (.tuple ts) (.arr items) = some (.tuple vs) ↔
    ts.length = items.length ∧ List.Forall₂ (fun pair v => serde.fromValue pair.1 pair.2 = some v) (ts.zip items) vs
  struct : ∀ fields entries values, serde.fromValue (.struct fields) (.obj entries) = some (.struct values) ↔
    List.Forall₂ (fun field value => field.1 = value.1 ∧ serde.fieldValue entries field = some value.2) fields values
  map : ∀ t entries values, serde.fromValue (.map t) (.obj entries) = some (.map values) ↔
    List.Forall₂ (fun entry value => entry.1 = value.1 ∧ serde.fromValue t entry.2 = some value.2) entries values
  null : ∀ t v, serde.fromValue t .null = some v → v = .none
  notStruct : ∀ fields s, serde.fromValue (.struct fields) (.str s) = none
  notMap : ∀ t s, serde.fromValue (.map t) (.str s) = none

end SerdeJson

def fromSlice (serde : SerdeJson) (t : Ty) (tokens : List Token) : Option Val :=
  (serde.parse tokens).bind fun value => serde.fromValue t (transformKeysToSnakeCase value)

end Forte
