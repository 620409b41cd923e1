import DuckDB.Parser.ParsedExpression

/-!
# The window operator

`PhysicalWindow` collects all rows of its child, computes the window expressions one after another,
and returns the columns of the rows with the results behind them (`physical_window.cpp`). For an
expression with a PARTITION BY or an ORDER BY clause the collected rows are sorted in place.

`R` is the type of the rows of the child. What depends on the types of the values is in
`WindowOperations`; the aggregates SUM, MIN, MAX and AVG are the `Compute` of the segment tree.
-/

namespace DuckDB

/-- The window functions of `enum class ExpressionType`. -/
inductive WindowType where
  | sum
  | countStar
  | min
  | max
  | avg
  | rank
  | rankDense
  | ntile
  | percentRank
  | cumeDist
  | rowNumber
  | firstValue
  | lastValue
  | lead
  | lag
deriving DecidableEq, Repr

/-- An expression behind a window function: for a scalar one only the first value is used. -/
structure WindowArgument (R V : Type) where
  evaluate : R → Option V
  isScalar : Bool

/-- `class BoundWindowExpression`. -/
structure BoundWindowExpression (R V : Type) where
  type : WindowType
  child : Option (R → Option V) := none
  partitions : List (R → Option V) := []
  orders : List ((R → Option V) × OrderType) := []
  startBoundary : WindowBoundary := .unboundedPreceding
  endBoundary : WindowBoundary := .currentRowRange
  startExpr : Option (WindowArgument R V) := none
  endExpr : Option (WindowArgument R V) := none
  offsetExpr : Option (WindowArgument R V) := none
  defaultExpr : Option (WindowArgument R V) := none

/-- What the operator needs to know about values: `Value::Numeric`, `Value::GetNumericValue`, the
quotient of two numbers as DOUBLE, and `WindowSegmentTree::Compute`. -/
structure WindowOperations (V : Type) where
  numeric : ℤ → V
  numericValue : V → Except Exception ℤ
  quotient : ℤ → ℤ → V
  segmentTree : WindowType → List (Option V) → ℕ → ℕ → Option V

/-- A row of the collection. `rowNumber` is its position in the input; the source does not have
it. -/
structure WindowTuple (R : Type) where
  columns : R
  rowNumber : ℕ
deriving DecidableEq, Repr

/-- A row that the operator returns. -/
structure WindowRow (R V : Type) where
  columns : R
  results : List (Option V)
deriving DecidableEq, Repr

/-- `struct WindowBoundariesState`. -/
structure WindowBoundariesState (V : Type) where
  partitionStart : ℕ := 0
  partitionEnd : ℕ := 0
  peerStart : ℕ := 0
  peerEnd : ℕ := 0
  windowStart : ℤ := -1
  windowEnd : ℤ := -1
  isSamePartition : Bool := false
  isPeer : Bool := false
  rowPrev : List (Option V)

/-- The counters of the rank functions. -/
structure RankState where
  denseRank : ℕ := 1
  rankEqual : ℕ := 0
  rank : ℕ := 1

namespace PhysicalWindow

open ChunkCollection

variable {R V : Type} [LinearOrder V]

/-! ### Sorting -/

/-- The values to sort by: first the partitions, then the orders. -/
def sortKey (wexpr : BoundWindowExpression R V) (row : R) : List (Option V) :=
  wexpr.partitions.map (· row) ++ wexpr.orders.map (·.1 row)

/-- The order types that belong to `sortKey`. -/
def sortOrders (wexpr : BoundWindowExpression R V) : List OrderType :=
  wexpr.partitions.map (fun _ => .ascending) ++ wexpr.orders.map (·.2)

/-- `needs_sorting`. -/
def needsSorting (wexpr : BoundWindowExpression R V) : Bool :=
  0 < wexpr.partitions.length + wexpr.orders.length

/-- The result of `Sort` for the keys of the collection. -/
def sortedVector (wexpr : BoundWindowExpression R V) (input : List (WindowTuple R)) : List ℕ :=
  let output := input.map fun tuple => sortKey wexpr tuple.columns
  sort (fun left right => compareTuple (sortOrders wexpr) (output.getD left []) (output.getD right []))
    input.length

/-- `SortCollectionForWindow`: the rows and their keys in the new order. -/
def sortCollectionForWindow (wexpr : BoundWindowExpression R V) (input : List (WindowTuple R)) :
    List (WindowTuple R) × List (List (Option V)) :=
  let output := input.map fun tuple => sortKey wexpr tuple.columns
  let order := sortedVector wexpr input
  (reorder input order, reorder output order)

/-! ### Boundaries -/

/-- `EqualsSubset`. -/
def equalsSubset (a b : List (Option V)) (start stop : ℕ) : Bool :=
  (a.take stop).drop start = (b.take stop).drop start

/-- The loop of `BinarySearchRightmost`. -/
def binarySearchLoop (input : List (List (Option V))) (row : List (Option V)) (compCols : ℕ) :
    ℕ → ℕ → ℕ → ℕ
  | 0, l, _ => l
  | fuel + 1, l, r =>
    if l < r then
      let m := (l + r) / 2
      if (((input.getD m []).zip row).take compCols).all fun p => compareValue p.1 p.2 ≠ .gt then
        binarySearchLoop input row compCols fuel (m + 1) r
      else binarySearchLoop input row compCols fuel l m
    else l

/-- `BinarySearchRightmost`, with the one added that all callers add. -/
def binarySearchRightmost (input : List (List (Option V))) (row : List (Option V))
    (l r compCols : ℕ) : ℕ :=
  if compCols = 0 then r else binarySearchLoop input row compCols (r - l) l r

/-- The value of an argument for a row of the collection. -/
def argumentValue (argument : WindowArgument R V) (rows : List R) (rowIdx : ℕ) : Option V :=
  rows[if argument.isScalar then 0 else rowIdx]?.bind argument.evaluate

/-- `Value::GetNumericValue`. -/
def getNumericValue (operations : WindowOperations V) : Option V → Except Exception ℤ
  | none => .error (.conversionException "Cannot convert NULL Value to numeric value")
  | some value => operations.numericValue value

/-- The number of rows in EXPR PRECEDING or EXPR FOLLOWING. -/
def boundaryValue (operations : WindowOperations V) (argument : Option (WindowArgument R V))
    (rows : List R) (rowIdx : ℕ) : Except Exception ℤ :=
  match argument with
  | none => .error .assertion
  | some argument => getNumericValue operations (argumentValue argument rows rowIdx)

/-- The partition and the peers of a row. -/
def updatePartition (wexpr : BoundWindowExpression R V) (keys : List (List (Option V)))
    (inputSize rowIdx : ℕ) (bounds : WindowBoundariesState V) : WindowBoundariesState V :=
  if needsSorting wexpr then
    let rowCur := keys.getD rowIdx []
    let sortColCount := wexpr.partitions.length + wexpr.orders.length
    let isSamePartition := equalsSubset bounds.rowPrev rowCur 0 wexpr.partitions.length
    let isPeer := isSamePartition &&
      equalsSubset bounds.rowPrev rowCur wexpr.partitions.length sortColCount
    let bounds := { bounds with isSamePartition, isPeer, rowPrev := rowCur }
    let bounds :=
      if !isSamePartition || rowIdx = 0 then
        { bounds with
          partitionStart := rowIdx
          peerStart := rowIdx
          partitionEnd :=
            binarySearchRightmost keys rowCur rowIdx inputSize wexpr.partitions.length }
      else if !isPeer then { bounds with peerStart := rowIdx }
      else bounds
    if wexpr.endBoundary = .currentRowRange ∨ wexpr.type = .cumeDist then
      { bounds with
        peerEnd := binarySearchRightmost keys rowCur rowIdx bounds.partitionEnd sortColCount }
    else bounds
  else
    { bounds with
      isSamePartition := false
      isPeer := true
      partitionEnd := inputSize
      peerEnd := inputSize }

/-- The conversion to `ssize_t`. -/
def toSigned (n : ℤ) : ℤ := n.bmod (2 ^ 64)

/-- The first row of the frame. -/
def windowStart (operations : WindowOperations V) (wexpr : BoundWindowExpression R V)
    (rows : List R) (rowIdx : ℕ) (bounds : WindowBoundariesState V) : Except Exception ℤ :=
  match wexpr.startBoundary with
  | .unboundedPreceding => .ok bounds.partitionStart
  | .currentRowRows => .ok rowIdx
  | .currentRowRange => .ok bounds.peerStart
  | .unboundedFollowing => .error .assertion
  | .exprPreceding =>
    (boundaryValue operations wexpr.startExpr rows rowIdx).map fun n => toSigned (rowIdx - n)
  | .exprFollowing =>
    (boundaryValue operations wexpr.startExpr rows rowIdx).map fun n => toSigned (rowIdx + n)
  | .invalid => .error (.notImplementedException "Unsupported boundary")

/-- The end of the frame. -/
def windowEnd (operations : WindowOperations V) (wexpr : BoundWindowExpression R V)
    (rows : List R) (rowIdx : ℕ) (bounds : WindowBoundariesState V) : Except Exception ℤ :=
  match wexpr.endBoundary with
  | .unboundedPreceding => .error .assertion
  | .currentRowRows => .ok (rowIdx + 1)
  | .currentRowRange => .ok bounds.peerEnd
  | .unboundedFollowing => .ok bounds.partitionEnd
  | .exprPreceding =>
    (boundaryValue operations wexpr.endExpr rows rowIdx).map fun n => toSigned (rowIdx - n + 1)
  | .exprFollowing =>
    (boundaryValue operations wexpr.endExpr rows rowIdx).map fun n => toSigned (rowIdx + n + 1)
  | .invalid => .error (.notImplementedException "Unsupported boundary")

/-- `UpdateWindowBoundaries`. -/
def updateWindowBoundaries (operations : WindowOperations V) (wexpr : BoundWindowExpression R V)
    (keys : List (List (Option V))) (rows : List R) (rowIdx : ℕ)
    (bounds : WindowBoundariesState V) : Except Exception (WindowBoundariesState V) := do
  let bounds := updatePartition wexpr keys rows.length rowIdx bounds
  let start ← windowStart operations wexpr rows rowIdx bounds
  let stop ← windowEnd operations wexpr rows rowIdx bounds
  let start := if start < bounds.partitionStart then (bounds.partitionStart : ℤ) else start
  -- the comparison is between unsigned numbers, so that a negative end is a large one
  let stop := if stop < 0 ∨ bounds.partitionEnd < stop then (bounds.partitionEnd : ℤ) else stop
  if start < 0 ∨ stop < 0 then .error (.exception "Failed to compute window boundaries")
  else .ok { bounds with windowStart := start, windowEnd := stop }

/-! ### Values -/

/-- `WindowNeedsRank`. -/
def windowNeedsRank (type : WindowType) : Bool :=
  type = .percentRank || type = .rank || type = .rankDense || type = .cumeDist

/-- The update of the ranks in the main loop. -/
def updateRanks (wexpr : BoundWindowExpression R V) (rowIdx : ℕ)
    (bounds : WindowBoundariesState V) (ranks : RankState) : RankState :=
  if windowNeedsRank wexpr.type then
    let ranks :=
      if !bounds.isSamePartition || rowIdx = 0 then { denseRank := 1, rank := 1, rankEqual := 0 }
      else if !bounds.isPeer then
        { denseRank := ranks.denseRank + 1, rank := ranks.rank + ranks.rankEqual, rankEqual := 0 }
      else ranks
    { ranks with rankEqual := ranks.rankEqual + 1 }
  else ranks

/-- The tile of a row: NULL if there are fewer rows than tiles. -/
def ntile (operations : WindowOperations V) (total parameter : ℤ) (rowIdx : ℕ) : Option V :=
  let size := total.tdiv parameter
  if 0 < size then
    let large := total - parameter * size
    let small := large * (size + 1)
    if rowIdx < small then some (operations.numeric (1 + (rowIdx : ℤ).tdiv (size + 1)))
    else some (operations.numeric (1 + large + ((rowIdx : ℤ) - small).tdiv size))
  else none

/-- `ChunkCollection::GetValue` for the payload. -/
def payloadValue (payload : List (Option V)) (index : ℕ) : Except Exception (Option V) :=
  if payload.length ≤ index / standardVectorSize * standardVectorSize then .error .assertion
  else match payload[index]? with
    | none => .error (.outOfRangeException "GetValue() out of range")
    | some value => .ok value

/-- The offset of LEAD and LAG. -/
def leadLagOffset (operations : WindowOperations V) (wexpr : BoundWindowExpression R V)
    (rows : List R) (rowIdx : ℕ) : Except Exception ℤ :=
  match wexpr.offsetExpr with
  | none => .ok 1
  | some argument => getNumericValue operations (argumentValue argument rows rowIdx)

/-- The result of the window function for a row with a frame that is not empty. -/
def windowResult (operations : WindowOperations V) (wexpr : BoundWindowExpression R V)
    (rows : List R) (payload : List (Option V)) (rowIdx : ℕ) (bounds : WindowBoundariesState V)
    (ranks : RankState) : Except Exception (Option V) :=
  let partitionSize : ℤ := bounds.partitionEnd - bounds.partitionStart
  match wexpr.type with
  | .sum | .min | .max | .avg =>
    .ok (operations.segmentTree wexpr.type payload bounds.windowStart.toNat bounds.windowEnd.toNat)
  | .countStar => .ok (some (operations.numeric (bounds.windowEnd - bounds.windowStart)))
  | .rowNumber => .ok (some (operations.numeric (rowIdx - bounds.partitionStart + 1)))
  | .rankDense => .ok (some (operations.numeric ranks.denseRank))
  | .rank => .ok (some (operations.numeric ranks.rank))
  | .percentRank =>
    let denom := partitionSize - 1
    .ok (some (if 0 < denom then operations.quotient (ranks.rank - 1) denom
      else operations.quotient 0 1))
  | .cumeDist =>
    .ok (some (if 0 < partitionSize then
      operations.quotient (bounds.peerEnd - bounds.partitionStart) partitionSize
      else operations.quotient 0 1))
  | .ntile =>
    if wexpr.child.isNone then .error (.exception "NTILE needs a parameter")
    else do
      let parameter ← getNumericValue operations (← payloadValue payload rowIdx)
      .ok (ntile operations partitionSize parameter rowIdx)
  | .lead | .lag => do
    let offset ← leadLagOffset operations wexpr rows rowIdx
    let defVal := wexpr.defaultExpr.bind (argumentValue · rows rowIdx)
    let lagIdx := toSigned (rowIdx - offset)
    if wexpr.type = .lead then
      -- LEAD does not use its offset
      if rowIdx + 1 < bounds.partitionEnd then payloadValue payload (rowIdx + 1) else .ok defVal
    else if 0 ≤ lagIdx ∧ bounds.partitionStart ≤ lagIdx then payloadValue payload lagIdx.toNat
    else .ok defVal
  | .firstValue => payloadValue payload bounds.windowStart.toNat
  | .lastValue => payloadValue payload (bounds.windowEnd.toNat - 1)

/-- The result for a row: NULL if no values are read for the window. -/
def rowResult (operations : WindowOperations V) (wexpr : BoundWindowExpression R V)
    (rows : List R) (payload : List (Option V)) (rowIdx : ℕ) (bounds : WindowBoundariesState V)
    (ranks : RankState) : Except Exception (Option V) :=
  if bounds.windowEnd ≤ bounds.windowStart then .ok none
  else windowResult operations wexpr rows payload rowIdx bounds ranks

/-- The main loop of `ComputeWindowExpression`, for the rows that are left. -/
def computeRows (operations : WindowOperations V) (wexpr : BoundWindowExpression R V)
    (keys : List (List (Option V))) (rows : List R) (payload : List (Option V)) :
    List ℕ → WindowBoundariesState V → RankState → Except Exception (List (Option V))
  | [], _, _ => .ok []
  | rowIdx :: rest, bounds, ranks => do
    let bounds ← updateWindowBoundaries operations wexpr keys rows rowIdx bounds
    let ranks := updateRanks wexpr rowIdx bounds ranks
    let res ← rowResult operations wexpr rows payload rowIdx bounds ranks
    let values ← computeRows operations wexpr keys rows payload rest bounds ranks
    .ok (res :: values)

/-- The collection and the sort columns after the sort, if there is one. -/
def sortInput (wexpr : BoundWindowExpression R V) (input : List (WindowTuple R)) :
    List (WindowTuple R) × List (List (Option V)) :=
  if needsSorting wexpr then sortCollectionForWindow wexpr input else (input, [])

/-- `payload_collection`: the argument of the function, evaluated on all rows. -/
def payloadCollection (wexpr : BoundWindowExpression R V) (rows : List R) : List (Option V) :=
  match wexpr.child with
  | none => []
  | some child => rows.map child

/-- `ComputeWindowExpression`: the collection as it is left, and the column of the results. -/
def computeWindowExpression (operations : WindowOperations V) (wexpr : BoundWindowExpression R V)
    (input : List (WindowTuple R)) :
    Except Exception (List (WindowTuple R) × List (Option V)) := do
  let (input, keys) := sortInput wexpr input
  let rows := input.map (·.columns)
  let values ← computeRows operations wexpr keys rows (payloadCollection wexpr rows)
    (List.range input.length) { rowPrev := keys.getD 0 [] } {}
  .ok (input, values)

/-! ### The operator -/

/-- `PhysicalWindowOperatorState`: the rows of the child and the columns of the results. -/
structure WindowState (R V : Type) where
  tuples : List (WindowTuple R)
  windowResults : List (List (Option V)) := []

/-- The loop over the window expressions. -/
def computeAll (operations : WindowOperations V) :
    List (BoundWindowExpression R V) → WindowState R V → Except Exception (WindowState R V)
  | [], state => .ok state
  | wexpr :: rest, state => do
    let (tuples, results) ← computeWindowExpression operations wexpr state.tuples
    computeAll operations rest ⟨tuples, state.windowResults ++ [results]⟩

/-- A row of the result: the columns of the row at a position, and the results at that position. -/
def outputRow (state : WindowState R V) (position : ℕ) : Option (WindowRow R V) :=
  state.tuples[position]?.map fun tuple =>
    ⟨tuple.columns, state.windowResults.filterMap (·[position]?)⟩

/-- The chunk that `_GetChunk` returns at a position. -/
def getChunk (state : WindowState R V) (position : ℕ) : List (WindowRow R V) :=
  (List.range' position (min standardVectorSize (state.tuples.length - position))).filterMap
    (outputRow state)

/-- The rows of the child, with their numbers. -/
def bigData (input : Chunks R) : List (WindowTuple R) :=
  input.rows.zipIdx.map fun (columns, rowNumber) => ⟨columns, rowNumber⟩

/-- All chunks that the operator returns. -/
def execute (operations : WindowOperations V) (selectList : List (BoundWindowExpression R V))
    (input : Chunks R) : Except Exception (List (List (WindowRow R V))) := do
  let state ← computeAll operations selectList { tuples := bigData input }
  .ok ((List.range ((state.tuples.length + standardVectorSize - 1) / standardVectorSize)).map
    fun chunk => getChunk state (chunk * standardVectorSize))

end PhysicalWindow

end DuckDB
