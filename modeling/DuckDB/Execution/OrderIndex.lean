import DuckDB.Common.Constants
import Mathlib.Data.List.Sort

/-!
# Order indexes

`OrderIndex` follows `order_index.cpp`: an array of values with the row identifiers they were
inserted under, sorted again after every insertion, and the four searches for the positions between
which the entries of a comparison lie. The value of a row is what the index expression gives for
it.

The searches work on the values of the entries. A `SearchFault` is a read outside of the array or
an index that does not fit into its type.
-/

namespace DuckDB

/-- `SortChunk`: a value and the row it was inserted for. -/
structure SortChunk (W : Type*) where
  value : W
  rowId : ℕ
deriving DecidableEq, Repr

/-- What `std::sort` may do: the entries in some order, with the values ascending. -/
structure Sorting (W : Type*) [LE W] where
  sort : List (SortChunk W) → List (SortChunk W)
  perm : ∀ entries, (sort entries).Perm entries
  sorted : ∀ entries, (sort entries).Pairwise (·.value ≤ ·.value)

/-- Sorting by merging. -/
def Sorting.merge (W : Type*) [LinearOrder W] : Sorting W where
  sort entries := entries.mergeSort fun a b => decide (a.value ≤ b.value)
  perm entries := List.mergeSort_perm entries _
  sorted entries := by
    refine (List.pairwise_mergeSort ?_ ?_ entries).imp of_decide_eq_true
    · intro a b c hab hbc
      exact decide_eq_true ((of_decide_eq_true hab).trans (of_decide_eq_true hbc))
    · intro a b
      simpa using le_total a.value b.value

/-- `class OrderIndex`: the expression on a row, the entries, and the number of entries that the
array has room for. -/
structure OrderIndex (R W : Type*) where
  expression : R → W
  data : List (SortChunk W) := []
  capacity : ℕ := standardVectorSize

namespace OrderIndex

variable {R W : Type*}

/-- `OrderIndex::Insert`: the entries go behind the ones that are there. -/
def insert (entries : List (SortChunk W)) (index : OrderIndex R W) : OrderIndex R W :=
  { index with
    data := index.data ++ entries
    capacity :=
      if index.data.length + entries.length ≥ index.capacity then 2 * index.capacity
      else index.capacity }

/-- `OrderIndex::Append`, for a chunk without selection vector. -/
def append [LE W] (sorting : Sorting W) (rows : List R) (rowIdentifierStart : ℕ)
    (index : OrderIndex R W) : OrderIndex R W :=
  let inserted := index.insert ((rows.zipIdx rowIdentifierStart).map fun e =>
    ⟨index.expression e.1, e.2⟩)
  { inserted with data := sorting.sort inserted.data }

end OrderIndex

/-! ### Searching -/

/-- What can go wrong in a search. -/
inductive SearchFault where
  | outOfBounds
  | wrapped
deriving DecidableEq, Repr

/-- The numbers below which an index is an `int`. -/
def intLimit : ℕ := 2147483648

/-- `size_t` to `int`. -/
def toInt (position : ℕ) : Except SearchFault ℕ :=
  if position < intLimit then .ok position else .error .wrapped

section Search

variable {W : Type*} [LinearOrder W] (array : List W) (key : W)

/-- `binary_search`: a position, and whether the key was found there. `upper - 1` is below zero
when `middle` is zero. -/
def binarySearch (lower upper : ℕ) : Except SearchFault (ℕ × Bool) :=
  if lower ≤ upper then
    let middle := (lower + upper) / 2
    match array[middle]? with
    | none => .error .outOfBounds
    | some element =>
      if element < key then binarySearch (middle + 1) upper
      else if key < element then
        if middle = 0 then .error .wrapped else binarySearch lower (middle - 1)
      else .ok (middle, true)
  else .ok (upper, false)
termination_by upper + 1 - lower

/-- `while (pos > 0 && array[pos].value == key) pos--`. -/
def skipDown : ℕ → Except SearchFault ℕ
  | 0 => .ok 0
  | pos + 1 =>
    match array[pos + 1]? with
    | none => .error .outOfBounds
    | some element => if element = key then skipDown pos else .ok (pos + 1)

/-- `binary_search_lt`. -/
def binarySearchLT : Except SearchFault ℕ :=
  match binarySearch array key 0 array.length with
  | .error fault => .error fault
  | .ok (pos, true) =>
    match skipDown array key pos with
    | .error fault => .error fault
    | .ok pos => .ok (if pos ≠ 0 then pos + 1 else pos)
  | .ok (pos, false) => .ok pos

/-- `while (array[pos].value == key) pos++`, on the entries from `pos` on. -/
def skipUp (key : W) : List W → ℕ → Except SearchFault ℕ
  | [], _ => .error .outOfBounds
  | element :: rest, pos => if element = key then skipUp key rest (pos + 1) else .ok pos

/-- `binary_search_gt`. The loop over equal entries does not start at the position zero. -/
def binarySearchGT : Except SearchFault ℕ :=
  match binarySearch array key 0 array.length with
  | .error fault => .error fault
  | .ok (pos, found) =>
    match if 0 < pos then skipUp key (array.drop pos) pos else .ok pos with
    | .error fault => .error fault
    | .ok pos => .ok (if found then pos else pos + 1)

/-- `while (array[pos].value <= key && pos < count) pos++`, on the entries from `pos` on. -/
def skipLTE (key : W) : List W → ℕ → Except SearchFault ℕ
  | [], _ => .error .outOfBounds
  | element :: rest, pos =>
    if element ≤ key then
      match toInt (pos + 1) with
      | .error fault => .error fault
      | .ok pos => skipLTE key rest pos
    else .ok pos

/-- `binary_search_lte`. -/
def binarySearchLTE : Except SearchFault ℕ :=
  match binarySearch array key 0 array.length with
  | .error fault => .error fault
  | .ok (pos, _) =>
    match toInt pos with
    | .error fault => .error fault
    | .ok pos => skipLTE key (array.drop pos) pos

/-- `while (pos >= 0 && array[pos].value == key) pos--` and `pos++`. -/
def skipGTE : ℕ → Except SearchFault ℕ
  | 0 =>
    match array[0]? with
    | none => .error .outOfBounds
    | some element => .ok (if element = key then 0 else 1)
  | pos + 1 =>
    match array[pos + 1]? with
    | none => .error .outOfBounds
    | some element => if element = key then skipGTE pos else toInt (pos + 2)

/-- `binary_search_gte`. -/
def binarySearchGTE : Except SearchFault ℕ :=
  match binarySearch array key 0 array.length with
  | .error fault => .error fault
  | .ok (pos, found) =>
    match toInt pos with
    | .error fault => .error fault
    | .ok pos => if found then skipGTE array key pos else toInt (pos + 1)

end Search

namespace OrderIndex

variable {R W : Type*} [LinearOrder W] (index : OrderIndex R W) (value : W)

/-- `OrderIndex::SearchLT`. -/
def searchLT : Except SearchFault ℕ :=
  binarySearchLT (index.data.map (·.value)) value

/-- `OrderIndex::SearchLTE`. -/
def searchLTE : Except SearchFault ℕ :=
  binarySearchLTE (index.data.map (·.value)) value

/-- `OrderIndex::SearchGT`. -/
def searchGT : Except SearchFault ℕ :=
  binarySearchGT (index.data.map (·.value)) value

/-- `OrderIndex::SearchGTE`. -/
def searchGTE : Except SearchFault ℕ :=
  binarySearchGTE (index.data.map (·.value)) value

end OrderIndex

end DuckDB
