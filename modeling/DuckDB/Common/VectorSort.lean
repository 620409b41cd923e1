import DuckDB.Common.DataChunk
import DuckDB.Theory.Quicksort
import Mathlib.Order.WithBot

/-!
# Sorting a vector

`VectorOperations::Sort` (`common/vector_operations/sort.cpp`) writes the positions of the entries
of a vector into an array in the order of the entries, which are numbers or strings. A string is
behind a pointer; `⊥` is the null pointer, and comparing it ends the call. A number is never `⊥`.
-/

namespace DuckDB.Vector

open Theory

variable {α : Type}

/-- The positions of the rows. -/
def positions (selVector : Option (ℕ → ℕ)) (count : ℕ) : List ℕ :=
  (List.range count).map (position selVector)

/-- `Vector::NotNullSelVector`: the number of rows that are not NULL, their positions, and the
positions of the other rows. -/
def notNullSelVector (v : Vector α) : ℕ × List ℕ × List ℕ :=
  if (List.range standardVectorSize).any v.nullmask then
    let (notNullVector, nullVector) := exec v.selVector v.count
      (fun i _ (notNullVector, nullVector) =>
        if !v.nullmask i then (notNullVector ++ [i], nullVector)
        else (notNullVector, nullVector ++ [i]))
      0 ([], [])
    (notNullVector.length, notNullVector, nullVector)
  else (v.count, [], [])

section Sorting

variable {W : Type} [LinearOrder W]

/-- `templated_quicksort_initial`: the pivot of the comparisons is the entry at 0. -/
def templatedQuicksortInitial (data : ℕ → WithBot W) (selVector : Option (ℕ → ℕ)) (count : ℕ)
    (result : List ℕ) : Option (List ℕ × ℕ) :=
  let rest := (List.range' 1 (count - 1)).map (position selVector)
  -- every entry behind the first one is compared with the pivot
  if rest.isEmpty || (0 :: rest).all (⊥ < data ·) then
    Quicksort.initial (data · ≤ data 0) (position selVector 0) rest count result
  else none

/-- `templated_quicksort_inplace`; every call is for fewer than `count` entries. The first call
compares all its entries with one of them, if there are two. -/
def templatedQuicksortInplace (data : ℕ → WithBot W) (count left right : ℕ) (result : List ℕ) :
    Option (List ℕ) :=
  if right ≤ left || ((result.take (right + 1)).drop left).all (⊥ < data ·) then
    Quicksort.inplace (data · ≤ data ·) (fun i pivot => data pivot ≤ data i) count left right result
  else none

/-- `templated_quicksort`. -/
def templatedQuicksort (data : ℕ → WithBot W) (selVector : Option (ℕ → ℕ)) (count : ℕ)
    (result : List ℕ) : Option (List ℕ) := do
  let (result, part) ← templatedQuicksortInitial data selVector count result
  if part > count then return result
  let result ← templatedQuicksortInplace data count 0 part result
  templatedQuicksortInplace data count (part + 1) (count - 1) result

/-- `VectorOperations::Sort` with a selection. -/
def sortSelected (v : Vector (WithBot W)) (selVector : Option (ℕ → ℕ)) (count : ℕ)
    (result : List ℕ) : Option (List ℕ) :=
  if count = 0 then some result else templatedQuicksort v.data selVector count result

/-- `VectorOperations::Sort`. -/
def sort (v : Vector (WithBot W)) (result : List ℕ) : Option (List ℕ) :=
  let (count, notNullVector, nullVector) := notNullSelVector v
  if count = v.count then sortSelected v none v.count result
  else do
    let nullCount := v.count - count
    let result ← (List.range nullCount).foldlM
      (fun result i => Quicksort.write result i (nullVector.getD i 0)) result
    let rest ← sortSelected v (some (notNullVector.getD · 0)) count (result.drop nullCount)
    return result.take nullCount ++ rest

end Sorting

end DuckDB.Vector
