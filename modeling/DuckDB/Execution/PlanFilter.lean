import DuckDB.Planner.Expression

/-!
# Filters as index scans

`createIndexScan` follows `plan_filter.cpp`: the first index that one of the filters compares with a
constant replaces the scan of the table. The loop over the filters keeps the position of the last
lower bound and of the last upper bound and stops at an equality; the filters at these positions are
then erased, one after the other. What the scan makes of the bounds is in
`physical_index_scan.cpp`.

`ColumnBindingResolver` has run before: a column of a filter is a position in the columns that the
scan reads, and a column of the indexed expression is a position in the columns that the index was
built over. The matcher compares the positions.
-/

namespace DuckDB

variable {V F : Type*}

/-- A `BoundReferenceExpression`: the column at a position of a chunk. -/
def Expression.reference (index : ℕ) : Expression V F := .columnRef ⟨0, index⟩ 0

/-- A row of a chunk with the given columns of the table. -/
def chunkRow (columnIds : List ℕ) (tuple : ℕ → Option V) : Row V := fun binding =>
  columnIds[binding.columnIndex]?.bind tuple

/-- An index of the table: the columns that it was built over and `expressions[0]`. The row
identifiers behind the columns are left out. -/
structure TableIndex (V F : Type*) where
  columnIds : List ℕ
  expression : Expression V F

/-- `CREATE INDEX` on one column: the binder finds the column at the first position. -/
def TableIndex.onColumn (column : ℕ) : TableIndex V F := ⟨[column], .reference 0⟩

/-- A comparison of the indexed expression with a constant. -/
structure IndexComparison (V : Type*) where
  type : ComparisonType
  value : Option V
deriving DecidableEq, Repr

/-- `ComparisonExpressionTypeMatcher::Match`. -/
def ComparisonType.isIndexComparison : ComparisonType → Bool
  | .equal | .greaterThanOrEqualTo | .lessThanOrEqualTo | .lessThan | .greaterThan => true
  | _ => false

/-- "greater than means this is a lower bound". -/
def ComparisonType.isLowerBound : ComparisonType → Bool
  | .greaterThanOrEqualTo | .greaterThan => true
  | _ => false

/-- `ConstantExpressionMatcher`: the value of a constant. -/
def Expression.constantValue : Expression V F → Option (Option V)
  | .constant value => some value
  | _ => none

section Match

variable [DecidableEq V] [DecidableEq F] (indexed : Expression V F)

/-- One side of a comparison is the indexed expression and the other one is a constant. -/
def matchSides (side other : Expression V F) : Option (Option V) :=
  if indexed.equals side then other.constantValue else none

/-- The matcher of `CreateIndexScan` on a filter, with the comparison as seen from the indexed
expression: "the expression is on the right side, we flip them around". -/
def matchIndex : Expression V F → Option (IndexComparison V)
  | .comparison type left right =>
    if type.isIndexComparison then
      match matchSides indexed left right with
      | some value => some ⟨type, value⟩
      | none =>
        match matchSides indexed right left with
        | some value => type.flip.map fun flipped => ⟨flipped, value⟩
        | none => none
    else none
  | _ => none

end Match

/-- A bound and the position of its filter. -/
abbrev BoundAt (V : Type*) := ℕ × IndexComparison V

/-- The variables of the loop over the filters. -/
structure IndexBounds (V : Type*) where
  equal : Option (BoundAt V) := none
  low : Option (BoundAt V) := none
  high : Option (BoundAt V) := none
deriving DecidableEq, Repr

/-- The loop over the filters from position `i` on. -/
def collectBounds [DecidableEq V] [DecidableEq F] (indexed : Expression V F) :
    List (Expression V F) → ℕ → IndexBounds V → IndexBounds V
  | [], _, bounds => bounds
  | expr :: rest, i, bounds =>
    match matchIndex indexed expr with
    | none => collectBounds indexed rest (i + 1) bounds
    | some comparison =>
      -- "equality overrides any other bounds so we just break here"
      if comparison.type = .equal then { bounds with equal := some (i, comparison) }
      else if comparison.type.isLowerBound then
        collectBounds indexed rest (i + 1) { bounds with low := some (i, comparison) }
      else collectBounds indexed rest (i + 1) { bounds with high := some (i, comparison) }

/-- `class PhysicalIndexScan`. -/
structure PhysicalIndexScan (V F : Type*) where
  index : TableIndex V F
  equal : Option (IndexComparison V) := none
  low : Option (IndexComparison V) := none
  high : Option (IndexComparison V) := none

namespace PhysicalIndexScan

/-- The bounds that `PhysicalIndexScan::_GetChunk` starts the scan of the index with. -/
def predicates (scan : PhysicalIndexScan V F) : List (IndexComparison V) :=
  match scan.low, scan.high, scan.equal with
  | some low, some high, _ => [low, high]
  | some low, none, _ => [low]
  | none, some high, _ => [high]
  | none, none, some equal => [equal]
  | none, none, none => []

/-- The scan returns a row of the table: the value that the index has for it lies within the
bounds. -/
def passes [Payload V] (ctx : Context V F) (tuple : ℕ → Option V) (scan : PhysicalIndexScan V F) :
    Prop :=
  ∀ c ∈ scan.predicates,
    Expression.compareValues ctx c.type
      (scan.index.expression.eval ctx (chunkRow scan.index.columnIds tuple)) c.value = some true

instance [Payload V] (ctx : Context V F) (tuple : ℕ → Option V) (scan : PhysicalIndexScan V F) :
    Decidable (scan.passes ctx tuple) :=
  inferInstanceAs (Decidable (∀ c ∈ scan.predicates, _))

end PhysicalIndexScan

/-- `filter.expressions.erase` at the position of a bound. There is nothing behind the end to
erase. -/
def eraseBound {α : Type*} (bound : Option (BoundAt V)) (expressions : List α) :
    Option (List α) :=
  match bound with
  | none => some expressions
  | some (i, _) => if i < expressions.length then some (expressions.eraseIdx i) else none

/-- What `CreateIndexScan` returns. -/
inductive IndexScanResult (V F : Type*) where
  /-- The filters stay above a scan of the table. -/
  | unchanged
  /-- An index scan and the filters that stay above it. -/
  | replaced (scan : PhysicalIndexScan V F) (remaining : List (Expression V F))
  /-- An erasure behind the end of the filters. -/
  | erasedPastEnd

/-- The erasures, once a bound was found. -/
def replaceFilters (index : TableIndex V F) (bounds : IndexBounds V)
    (filters : List (Expression V F)) : IndexScanResult V F :=
  let remaining := do
    let remaining ← eraseBound bounds.equal filters
    let remaining ← eraseBound bounds.low remaining
    eraseBound bounds.high remaining
  match remaining with
  | none => .erasedPastEnd
  | some remaining =>
    .replaced ⟨index, bounds.equal.map (·.2), bounds.low.map (·.2), bounds.high.map (·.2)⟩ remaining

/-- `CreateIndexScan`, for the indexes of a table. -/
def createIndexScan [DecidableEq V] [DecidableEq F] :
    List (TableIndex V F) → List (Expression V F) → IndexScanResult V F
  | [], _ => .unchanged
  | index :: indexes, filters =>
    let bounds := collectBounds index.expression filters 0 {}
    if bounds.equal.isSome || bounds.low.isSome || bounds.high.isSome then
      replaceFilters index bounds filters
    else createIndexScan indexes filters

end DuckDB
