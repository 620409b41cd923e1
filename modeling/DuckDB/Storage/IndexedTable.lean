import DuckDB.Execution.OrderIndex
import DuckDB.Storage.UniqueIndex

/-!
# Tables with their indexes

`IndexedTable.append` is `DataTable::Append` with everything that it appends to: the storage chunks,
the unique indexes and the order indexes. The indexes get the row identifiers before the rows are
stored.
-/

namespace DuckDB

variable {V W C : Type*}

/-- A table and its indexes. -/
structure IndexedTable (V W : Type*) where
  table : DataTable (Option V)
  uniqueIndexes : List (UniqueIndex V)
  indexes : List (OrderIndex (List (Option V)) W)

/-- What an append leaves open: the number of the table in undo entries, `VerifyConstraints`, the
addresses of new nodes and the order of equal values. -/
structure AppendContext (V W : Type*) [LE W] where
  number : ℕ
  verify : DataTable (Option V) → DataChunk (Option V) → Option Exception
  allocator : Allocator
  sorting : Sorting W

namespace IndexedTable

variable [LinearOrder V] [LE W] (context : AppendContext V W)

/-- The checks of `Append`. -/
def checks (s : IndexedTable V W) : TableChecks (Option V) C :=
  { TableChecks.unconstrained with
    verifyAppend := context.verify
    uniqueAppend := fun transaction t chunk =>
      (UniqueIndex.append context.allocator transaction t chunk s.uniqueIndexes).2 }

/-- Whether `Append` gets to the unique indexes. -/
def reachesIndexes (chunk : DataChunk (Option V)) (s : IndexedTable V W) : Bool :=
  !chunk.rows.isEmpty && !chunk.rows.any (·.length != s.table.columnCount) &&
    (context.verify s.table chunk).isNone

/-- `DataTable::Append`. -/
def append (chunk : DataChunk (Option V)) (transaction : Transaction C) (s : IndexedTable V W) :
    Transaction C × IndexedTable V W × Option Exception :=
  let last := s.table.tailChunk
  let unique := UniqueIndex.append context.allocator transaction s.table chunk s.uniqueIndexes
  let stored := s.table.append (s.checks context) context.number chunk transaction
  if s.reachesIndexes context chunk then
    (stored.1,
      { table := stored.2.1
        uniqueIndexes := unique.1
        indexes :=
          if unique.2.isSome then s.indexes
          else s.indexes.map (·.append context.sorting chunk.rows (last.start + last.count)) },
      stored.2.2)
  else (stored.1, { s with table := stored.2.1 }, stored.2.2)

/-- A sequence of `Append` calls, by any transactions. -/
def appends (calls : List (DataChunk (Option V) × Transaction C)) (s : IndexedTable V W) :
    IndexedTable V W :=
  calls.foldl (fun s call => (s.append context call.1 call.2).2.1) s

omit [LinearOrder V] [LE W] in
/-- A table without rows. -/
def initial (columnCount : ℕ) (constraints : List (List ℕ × Bool))
    (expressions : List (List (Option V) → W)) : IndexedTable V W where
  table := DataTable.empty columnCount
  uniqueIndexes := constraints.map fun c => { keys := c.1, allowNulls := c.2 }
  indexes := expressions.map fun expression => { expression := expression }

end IndexedTable

end DuckDB
