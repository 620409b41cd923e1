import DuckDB.Common.DataChunk

/-!
# The limit operator

`PhysicalLimit` returns the chunks of its child with their vectors cut (`physical_limit.cpp`).
-/

namespace DuckDB

/-- `DataChunk::size`. -/
def chunkSize {α : Type} (data : List (Vector α)) : ℕ :=
  match data with
  | [] => 0
  | v :: _ => v.count

/-- The rows of a chunk. -/
def chunkRows {α : Type} (data : List (Vector α)) : List (List (Option α)) :=
  (List.range (chunkSize data)).map fun k => data.map (·.row k)

/-- A chunk that a child returns before its end. All vectors have the same count
(`DataChunk::Verify`). -/
structure ChildChunk (α : Type) where
  data : List (Vector α)
  count_eq : ∀ v ∈ data, v.count = chunkSize data
  size_pos : 0 < chunkSize data

namespace PhysicalLimit

variable {α : Type}

/-- A vector with less rows. -/
def truncate (chunkCount : ℕ) (v : Vector α) : Vector α :=
  { v with count := chunkCount }

/-- A vector from a position on: the pointer to the data moves, the null mask and the selection
vector do not. -/
def slice (startPosition chunkCount : ℕ) (v : Vector α) : Vector α :=
  { v with data := fun i => v.data (i + startPosition), count := chunkCount }

/-- `_GetChunk` after the child has returned a chunk. -/
def getChunk (limit offset currentOffset : ℕ) (child : List (Vector α)) : List (Vector α) :=
  let maxElement := limit + offset
  if currentOffset < offset then
    if currentOffset + chunkSize child ≥ offset then
      let startPosition := offset - currentOffset
      let chunkCount := min limit (chunkSize child - startPosition)
      child.map (slice startPosition chunkCount)
    else []
  else if currentOffset + chunkSize child ≥ maxElement then
    child.map (truncate (maxElement - currentOffset))
  else
    child.map (truncate (chunkSize child))

/-- The rows that a query receives: it asks for chunks until it gets an empty one. -/
def execute (limit offset : ℕ) : List (ChildChunk α) → ℕ → List (List (Option α))
  | [], _ => []
  | child :: children, currentOffset =>
    if currentOffset ≥ limit + offset then []
    else
      let chunk := getChunk limit offset currentOffset child.data
      if chunkSize chunk = 0 then []
      else chunkRows chunk ++ execute limit offset children (currentOffset + chunkSize child.data)

end PhysicalLimit

end DuckDB
