import DuckDB.Common.Constants
import Mathlib.Data.Finset.Insert

/-!
# Rows as bytes

`DataTable` reads a row either from the columns of a storage chunk (`RetrieveBaseTableData`) or from
the bytes that `PushTuple` has saved in the undo buffer (`RetrieveVersionedData`). In both places a
NULL is stored as the smallest value of its type, and the nullmask belongs to the vectors of a
result only.

A column entry is the list of its bytes, least significant one first. A VARCHAR entry is a pointer;
`strings` gives the string at an address.
-/

namespace DuckDB

/-- The types of stored columns (`CopyToStorage` throws for the other ones). -/
inductive StoredType where
  | boolean
  | tinyint
  | smallint
  | integer
  | bigint
  | float
  | double
  | varchar
deriving DecidableEq, Repr

namespace StoredType

/-- `GetTypeIdSize`. -/
def size : StoredType → ℕ
  | boolean => 1
  | tinyint => 1
  | smallint => 2
  | integer => 4
  | bigint => 8
  | float => 4
  | double => 8
  | varchar => 8

/-- `IsNullValue`: the entry is `numeric_limits<T>::min()`, or a pointer to the string `\200`. -/
def isNullValue (strings : List UInt8 → List UInt8) : StoredType → List UInt8 → Bool
  | boolean, entry => entry == [0x80]
  | tinyint, entry => entry == [0x80]
  | smallint, entry => entry == [0, 0x80]
  | integer, entry => entry == [0, 0, 0, 0x80]
  | bigint, entry => entry == [0, 0, 0, 0, 0, 0, 0, 0x80]
  -- for these types `min` is the smallest positive normal number
  | float, entry => entry == [0, 0, 0x80, 0]
  | double, entry => entry == [0, 0, 0, 0, 0, 0, 0x10, 0]
  | varchar, entry => strings entry == [0x80]

end StoredType

/-- The entries of one row of a storage chunk. -/
structure StoredRow (types : List StoredType) where
  columns : List (List UInt8)
  sizes : columns.map List.length = types.map StoredType.size

/-- A vector of a result: its entries, and the positions of its nullmask that are set. -/
structure ResultVector where
  data : List (List UInt8)
  nullmask : Finset ℕ
  nullmask_lt : ∀ i ∈ nullmask, i < data.length
deriving DecidableEq

namespace ResultVector

/-- A vector after `Reset`. -/
def empty : ResultVector := ⟨[], ∅, by simp⟩

/-- Writes the next entry and, if asked to, its bit of the nullmask. -/
def push (entry : List UInt8) (null : Bool) (vector : ResultVector) : ResultVector where
  data := vector.data ++ [entry]
  nullmask := if null then insert vector.data.length vector.nullmask else vector.nullmask
  nullmask_lt i hi := by
    rw [List.length_append, List.length_singleton]
    split_ifs at hi
    · rcases Finset.mem_insert.1 hi with rfl | hi
      · exact Nat.lt_succ_self _
      · exact (vector.nullmask_lt i hi).trans (Nat.lt_succ_self _)
    · exact (vector.nullmask_lt i hi).trans (Nat.lt_succ_self _)

end ResultVector

variable {types : List StoredType}

/-- `accumulative_tuple_size`: where each column begins in a tuple. -/
def accumulativeTupleSize : ℕ → List StoredType → List ℕ
  | _, [] => []
  | accumulativeSize, type :: types =>
    accumulativeSize :: accumulativeTupleSize (accumulativeSize + type.size) types

/-- `TupleSerializer::Serialize` for one row, as `PushTuple` calls it. -/
def StoredRow.serialize (row : StoredRow types) : List UInt8 :=
  row.columns.foldl (fun target entry => target ++ entry) []

/-- The entry of a column. -/
def StoredRow.entry (row : StoredRow types) (column : Fin types.length) : List UInt8 :=
  row.columns[column.val]?.getD []

/-- `append_function`: entries are appended while their NULLs go to the nullmask. -/
def appendFromStorage (strings : List UInt8 → List UInt8) (type : StoredType)
    (source : List (List UInt8)) (target : ResultVector) : ResultVector :=
  source.foldl (fun vector entry => vector.push entry (type.isNullValue strings entry)) target

/-- `DataTable::RetrieveBaseTableData`, for the rows of the regular entries. -/
def retrieveBaseTableRows (strings : List UInt8 → List UInt8) (rows : List (StoredRow types))
    (result : List (Fin types.length × ResultVector)) : List (Fin types.length × ResultVector) :=
  result.map fun (column, vector) =>
    (column, appendFromStorage strings (types.get column) (rows.map (·.entry column)) vector)

/-- `DataTable::RetrieveVersionedData`: the bytes of the column are copied, and the nullmask is left
alone. -/
def retrieveVersionedRows (alternateVersionPointers : List (List UInt8))
    (result : List (Fin types.length × ResultVector)) : List (Fin types.length × ResultVector) :=
  result.map fun (column, vector) =>
    let offset := (accumulativeTupleSize 0 types)[column.val]?.getD 0
    (column, alternateVersionPointers.foldl (fun vector tuple =>
      vector.push ((tuple.drop offset).take (types.get column).size) false) vector)

end DuckDB
