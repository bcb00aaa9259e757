/-
The buffer of rows that are not yet in a part.

Rows are kept as one list for all tenants, in the order in which they came. The row is a parameter: a development
that has to say when a row came uses rows that know it.
-/
import Mathlib
import Fn0.Signy.LogQuery

namespace Signy

/-- Of pairs with one key the first is kept, among neighbours. -/
def dedupKeys : List (String × String) → List (String × String)
  | [] => []
  | [pair] => [pair]
  | pair :: next :: pairs => if next.1 = pair.1 then dedupKeys (pair :: pairs) else pair :: dedupKeys (next :: pairs)
termination_by pairs => pairs.length

/-- Sorted by key, duplicate keys collapsed to their first occurrence. -/
def canonicalizeStructuredMetadata (pairs : List (String × String)) : List (String × String) :=
  if pairs.IsChain (fun a b => a.1 < b.1) then pairs
  else dedupKeys (pairs.mergeSort fun a b => a.1 ≤ b.1)

/-- The live buffer and the snapshot that a flush is writing. -/
structure MemTable (ρ : Type) where
  inner : List ρ
  flushing : Option (List ρ)

namespace MemTable

variable {ρ : Type}

def empty : MemTable ρ := ⟨[], none⟩

def insert (table : MemTable ρ) (rows : List ρ) : MemTable ρ := { table with inner := table.inner ++ rows }

/-- A snapshot that is still there is taken along. -/
def beginFlush (table : MemTable ρ) : MemTable ρ := ⟨[], some (table.inner ++ table.flushing.getD [])⟩

def commitFlush (table : MemTable ρ) : MemTable ρ := { table with flushing := none }

def abortFlush (table : MemTable ρ) (snapshot : List ρ) : MemTable ρ := ⟨table.inner ++ snapshot, none⟩

/-- What a reader of both buffers sees. -/
def rows (table : MemTable ρ) : List ρ := table.inner ++ table.flushing.getD []

theorem rows_insert (table : MemTable ρ) (rows : List ρ) :
    (table.insert rows).rows.Perm (table.rows ++ rows) := by
  simp only [MemTable.rows, insert, List.append_assoc]
  exact (List.Perm.append_left _ List.perm_append_comm)

theorem rows_abortFlush {table : MemTable ρ} {snapshot : List ρ} (h : table.flushing = some snapshot) :
    (table.abortFlush snapshot).rows = table.rows := by
  simp [rows, abortFlush, h]

end MemTable

end Signy
