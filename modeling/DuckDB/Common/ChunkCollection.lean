import DuckDB.Common.Value
import DuckDB.Theory.Quicksort
import Mathlib.Data.List.FinRange
import Mathlib.Order.Lattice

/-!
# Chunk collections

A `ChunkCollection` keeps all its chunks full but the last one, so it is the list of its rows.
`Sort` computes the order of the rows as a list of positions (`chunk_collection.cpp`); `Reorder`
moves the rows along the cycles of that order.
-/

namespace DuckDB

open Theory

/-- The chunks that a child returns: the chunk of size zero that ends them is left out. -/
structure Chunks (α : Type*) where
  chunks : List (List α)
  nonempty : ∀ chunk ∈ chunks, chunk ≠ []
  size_le : ∀ chunk ∈ chunks, chunk.length ≤ standardVectorSize

namespace Chunks

variable {α : Type*}

/-- All rows of the chunks. -/
def rows (c : Chunks α) : List α :=
  c.chunks.flatten

/-- One chunk of one row. -/
def single (a : α) : Chunks α where
  chunks := [[a]]
  nonempty := by simp
  size_le := by simp [standardVectorSize]

end Chunks

/-- `enum class OrderType`. -/
inductive OrderType where
  | ascending
  | descending
deriving DecidableEq, Repr

namespace ChunkCollection

/-! ### Comparing rows -/

section Compare

variable {V : Type*} [LinearOrder V]

/-- `compare_value`: NULL comes before all values. -/
def compareValue : Option V → Option V → Ordering
  | none, none => .eq
  | some _, none => .gt
  | none, some _ => .lt
  | some left, some right => if left = right then .eq else if left < right then .lt else .gt

/-- `compare_tuple`. -/
def compareTuple : List OrderType → List (Option V) → List (Option V) → Ordering
  | order :: desc, left :: lefts, right :: rights =>
    match compareValue left right with
    | .eq => compareTuple desc lefts rights
    | .lt => if order = .ascending then .lt else .gt
    | .gt => if order = .ascending then .gt else .lt
  | _, _, _ => .eq

end Compare

/-! ### `Sort`

`compare` is the sign of `compare_tuple` for two rows of the collection, `result` the array of row
numbers. -/

section Sorting

variable {count : ℕ} (compare : Fin count → Fin count → Ordering)

/-- `_quicksort_initial`: the first row is the pivot of the other ones. -/
def quicksortInitial (pivot : Fin count) (rest result : List (Fin count)) :
    Option (List (Fin count) × ℕ) :=
  Quicksort.initial (compare · pivot ≠ .gt) pivot rest count result

/-- `_quicksort_inplace`; every call is for fewer rows than the one before. -/
def quicksortInplace (left right : ℕ) (result : List (Fin count)) : Option (List (Fin count)) :=
  Quicksort.inplace (compare · · ≠ .gt) (compare · · = .gt) count left right result

/-- `ChunkCollection::Sort`. `quicksortInitial` writes all entries before one is read, so it does not
matter that the array of the source holds no row numbers before. -/
def sortInto (result : List (Fin count)) : Option (List (Fin count)) :=
  match List.finRange count with
  | [] => some result
  | pivot :: rest => do
    let (result, part) ← quicksortInitial compare pivot rest result
    let result ← quicksortInplace compare 0 part result
    quicksortInplace compare (part + 1) (count - 1) result

/-- The order that `Sort` writes into an array of `count` entries. -/
def sort (compare : ℕ → ℕ → Ordering) (count : ℕ) : List ℕ :=
  ((sortInto (fun i j : Fin count => compare i j) (List.finRange count)).getD []).map Fin.val

end Sorting

/-! ### `Reorder` -/

section Reorder

variable {α : Type*}

/-- The inner loop of `Reorder`: it follows the cycle of the position `i`, whose row is in the
buffer. -/
def reorderCycle (i : ℕ) (buffer : α) : ℕ → ℕ → List α × List ℕ → List α × List ℕ
  | 0, _, state => state
  | fuel + 1, j, (rows, order) =>
    let k := order.getD j i
    let order := order.set j j
    if k = i then (rows.set j buffer, order)
    else reorderCycle i buffer fuel k (rows.set j (rows.getD k buffer), order)

/-- An iteration of the outer loop. -/
def reorderFrom (state : List α × List ℕ) (i : ℕ) : List α × List ℕ :=
  match state.1[i]? with
  | some buffer => reorderCycle i buffer state.1.length i state
  | none => state

/-- `ChunkCollection::Reorder`, for rows that are moved as a whole. -/
def reorder (rows : List α) (order : List ℕ) : List α :=
  ((List.range rows.length).foldl reorderFrom (rows, order)).1

/-! ### `Reorder` through the values

`Reorder` reads and writes the values of a row with `GetValue` and `SetValue`, which do not take all
of them: `get` reads a row into the buffer, `set` writes it back, and `copy` moves another row. An
access outside of the collection is an assertion, and so is a lack of fuel. -/

/-- The inner loop of `Reorder`. -/
def moveCycle (copy set : α → Except Exception α) (i : ℕ) (buffer : α) :
    ℕ → ℕ → List α × List ℕ → Except Exception (List α × List ℕ)
  | 0, _, _ => throw .assertion
  | fuel + 1, j, (rows, order) =>
    match order[j]? with
    | none => throw .assertion
    | some k =>
      if k = i then do
        let row ← set buffer
        return (rows.set j row, order.set j j)
      else
        match rows[k]? with
        | none => throw .assertion
        | some row => do
          let row ← copy row
          moveCycle copy set i buffer fuel k (rows.set j row, order.set j j)

/-- An iteration of the outer loop. -/
def moveFrom (get copy set : α → Except Exception α) (state : List α × List ℕ) (i : ℕ) :
    Except Exception (List α × List ℕ) :=
  match state.1[i]? with
  | none => throw .assertion
  | some row => do
    let buffer ← get row
    moveCycle copy set i buffer state.1.length i state

/-- `Vector::GetValue` for an entry of the vector. -/
def getValue (entry : Value) : Except Exception Value :=
  match entry with
  | .varchar val =>
    if Value.isUTF8String (some (val ++ [0])) = some true then return entry
    else throw (.exception "String value is not valid UTF8")
  | .invalid | .varbinary _ =>
    throw (.notImplementedException "Unimplemented type for conversion")
  | _ => return entry

/-- `Vector::SetValue` for a value of the type of the vector. -/
def setValue (val : Value) : Except Exception Value :=
  match val.type with
  | .invalid => throw (.conversionException "Invalid TypeId 0")
  | .varbinary => throw (.notImplementedException "Unimplemented type for adding")
  | _ => return val

/-- `ChunkCollection::Reorder` for rows of values. -/
def reorderValues (rows : List (List Value)) (order : List ℕ) :
    Except Exception (List (List Value)) := do
  let state ← (List.range rows.length).foldlM
    (moveFrom (·.mapM getValue) (·.mapM fun v => getValue v >>= setValue) (·.mapM setValue))
    (rows, order)
  return state.1

end Reorder

end ChunkCollection

end DuckDB
