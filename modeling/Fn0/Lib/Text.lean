/-
Texts as lists of characters: the white space around a text, and the numbers that digits spell.
-/
import Mathlib

abbrev Text : Type := List Char

namespace Text

/-! ## White space -/

/-- The characters with the Unicode property `White_Space`. -/
def isWhitespace (c : Char) : Bool :=
  (9 ≤ c.toNat && c.toNat ≤ 13) || (0x2000 ≤ c.toNat && c.toNat ≤ 0x200a) ||
    c.toNat ∈ [0x20, 0x85, 0xa0, 0x1680, 0x2028, 0x2029, 0x202f, 0x205f, 0x3000]

def trim (raw : Text) : Text := (raw.dropWhile isWhitespace).rdropWhile isWhitespace

theorem dropWhile_rdropWhile {α : Type} (p : α → Bool) (l : List α) :
    ((l.dropWhile p).rdropWhile p).dropWhile p = (l.dropWhile p).rdropWhile p := by
  rw [List.dropWhile_eq_self_iff]
  intro hpos
  have hprefix := List.rdropWhile_prefix p (l.dropWhile p)
  have hlong : 0 < (l.dropWhile p).length := hpos.trans_le hprefix.length_le
  have hhead := List.dropWhile_get_zero_not p l hlong
  rwa [List.get_eq_getElem, ← hprefix.getElem hpos] at hhead

@[simp] theorem trim_trim (raw : Text) : trim (trim raw) = trim raw := by
  rw [trim, trim, dropWhile_rdropWhile, List.rdropWhile_idempotent]

/-! ## Digits -/

def Digits (ds : Text) : Prop := ∀ c ∈ ds, c.isDigit = true

theorem digits_all {ds : Text} : ds.all Char.isDigit = true ↔ Digits ds := by simp [Digits]

instance (ds : Text) : Decidable (Digits ds) := decidable_of_iff _ digits_all

/-- The number that digits spell. -/
def value (ds : Text) : Nat := Nat.ofDigitChars 10 ds 0

end Text
