import DuckDB.Common.ChunkCollection

/-!
# The cross product operator

`PhysicalCrossProduct` collects the rows of its right child and pairs every row of the left child
with every chunk of them, one pair a call (`physical_cross_product.cpp`).
-/

namespace DuckDB

/-- `PhysicalCrossProductOperatorState`. `leftRest` is what the left child has still to return. -/
structure CrossProductState where
  leftPosition : ℕ := 0
  rightPosition : ℕ := 0
  rightData : List (List (List Value)) := []
  childChunk : List (List Value) := []
  leftRest : List (List (List Value))

namespace PhysicalCrossProduct

open ChunkCollection

/-! ### Collecting the right child -/

/-- `Vector::Append` and `Vector::Copy` for one entry. -/
def copyEntry (entry : Value) : Except Exception Value :=
  match entry.type with
  | .invalid => throw (.conversionException "Invalid TypeId 0")
  | .varbinary => throw .assertion
  | _ => return entry

/-- Where `ChunkCollection::Append` puts the rows: the last chunk is filled first. -/
def fillChunks (chunks : List (List (List Value))) (newChunk : List (List Value)) :
    List (List (List Value)) :=
  if newChunk = [] then chunks
  else match chunks.getLast? with
    | none => [newChunk]
    | some lastChunk =>
      let addedData := min newChunk.length (standardVectorSize - lastChunk.length)
      let chunks := chunks.dropLast ++ [lastChunk ++ newChunk.take addedData]
      if addedData < newChunk.length then chunks ++ [newChunk.drop addedData] else chunks

/-- `ChunkCollection::Append`. -/
def append (chunks : List (List (List Value))) (newChunk : List (List Value)) :
    Except Exception (List (List (List Value))) := do
  let newChunk ← newChunk.mapM (·.mapM copyEntry)
  return fillChunks chunks newChunk

/-! ### Pairing -/

/-- `VectorOperations::Set`. -/
def set (value : Value) : Except Exception Value :=
  match value with
  | .invalid | .varbinary _ => throw (.notImplementedException "Unimplemented type for Set")
  | _ => return value

/-- The values of the left side. -/
def copyRow (row : List Value) : Except Exception (List Value) :=
  row.mapM fun v => getValue v >>= set

/-- The next chunk of the left child. -/
def nextChunk (s : CrossProductState) : CrossProductState :=
  { s with childChunk := s.leftRest.headD [], leftRest := s.leftRest.tail }

/-- The first call collects the right child. -/
def materialize (right : Chunks (List Value)) (s : CrossProductState) :
    Except Exception CrossProductState := do
  if s.rightData ≠ [] then return s
  let rightData ← right.chunks.foldlM append []
  if rightData = [] then return s
  return nextChunk { s with leftPosition := 0, rightPosition := 0, rightData }

/-- The positions for the next call. -/
def advance (s : CrossProductState) : CrossProductState :=
  if s.leftPosition + 1 < s.childChunk.length then { s with leftPosition := s.leftPosition + 1 }
  else if s.rightPosition + 1 < s.rightData.length then
    { s with leftPosition := 0, rightPosition := s.rightPosition + 1 }
  else nextChunk { s with leftPosition := 0, rightPosition := 0 }

/-- `_GetChunk`. -/
def getChunk (right : Chunks (List Value)) (s : CrossProductState) :
    Except Exception (List (List Value) × CrossProductState) := do
  let s ← materialize right s
  if s.rightData = [] then return ([], s)
  match s.childChunk[s.leftPosition]?, s.rightData[s.rightPosition]? with
  | none, _ => return ([], s)
  | some _, none => throw .assertion
  | some left, some rightChunk => do
    let left ← copyRow left
    return (rightChunk.map (left ++ ·), advance s)

/-- The chunks of all calls up to the one that returns no rows. -/
def execute (right : Chunks (List Value)) :
    ℕ → CrossProductState → Except Exception (Option (List (List (List Value))))
  | 0, _ => return none
  | fuel + 1, s => do
    let (chunk, s) ← getChunk right s
    if chunk = [] then return some []
    return (← execute right fuel s).map (chunk :: ·)

end PhysicalCrossProduct

end DuckDB
