import DuckDB.Storage.UniqueIndex
import DuckDB.Theory.VersionChain
import DuckDB.Transaction.TransactionManager

/-!
# A database with unique indexes

`IndexedDatabase` adds the unique indexes of each table to a `Database`. An operation runs with the
checks that the indexes make in the state before it, and `Append` and `Update` leave their entries
in the indexes when they pass the checks. The constraints that do not look at the stored rows
(`VerifyConstraints`) stay a parameter.
-/

namespace DuckDB

open Theory

variable {V C : Type*} [LinearOrder V]

/-- A database and the unique indexes of its tables. -/
structure IndexedDatabase (V C : Type*) where
  database : Database (Option V) C
  indexes : ℕ → List (UniqueIndex V)

/-- What the model leaves open: `VerifyConstraints` for each table, the bytes that an update chunk
has under its NULLs, and the addresses of new nodes. -/
structure Environment (V C : Type*) where
  verifyAppend : ℕ → DataTable (Option V) → DataChunk (Option V) → Option Exception
  verifyUpdate : ℕ → DataTable (Option V) → UpdateChunk (Option V) → Option Exception
  underNull : UpdateChunk (Option V) → ℕ → ℕ → V
  allocator : Allocator

namespace IndexedDatabase

variable (env : Environment V C) (db : IndexedDatabase V C)

/-- The checks of `Append` and `Update` on each table. -/
def checks (table : ℕ) : TableChecks (Option V) C where
  verifyAppend := env.verifyAppend table
  verifyUpdate := env.verifyUpdate table
  uniqueAppend transaction t chunk :=
    (UniqueIndex.append env.allocator transaction t chunk (db.indexes table)).2
  uniqueUpdate transaction t updates :=
    (UniqueIndex.update env.allocator (env.underNull updates) transaction t updates
      (db.indexes table)).2

/-- The indexes of the table after an `Append`. -/
def indexesAfterAppend (table : ℕ) (chunk : DataChunk (Option V)) (transaction : Transaction C) :
    List (UniqueIndex V) :=
  let t := db.database.tables table
  if chunk.rows.isEmpty || chunk.rows.any (·.length != t.columnCount) ||
      (env.verifyAppend table t chunk).isSome then db.indexes table
  else (UniqueIndex.append env.allocator transaction t chunk (db.indexes table)).1

/-- The indexes of the table after an `Update`. -/
def indexesAfterUpdate (table : ℕ) (updates : UpdateChunk (Option V))
    (transaction : Transaction C) : List (UniqueIndex V) :=
  let t := db.database.tables table
  match updates.rowIdentifiers with
  | [] => db.indexes table
  | first :: _ =>
    if (env.verifyUpdate table t updates).isSome || (t.getChunk first).isNone then db.indexes table
    else
      (UniqueIndex.update env.allocator (env.underNull updates) transaction t updates
        (db.indexes table)).1

/-- The indexes after an operation. -/
def indexesAfter (op : Op (Option V) C) : ℕ → List (UniqueIndex V) :=
  match op with
  | .append id table chunk =>
    (db.database.transactionManager.active? id).elim db.indexes fun transaction =>
      Function.update db.indexes table (db.indexesAfterAppend env table chunk transaction)
  | .update id table updates =>
    (db.database.transactionManager.active? id).elim db.indexes fun transaction =>
      Function.update db.indexes table (db.indexesAfterUpdate env table updates transaction)
  | _ => db.indexes

/-- One whole operation. -/
def step (op : Op (Option V) C) : IndexedDatabase V C where
  database := (db.database.step (db.checks env) op).1
  indexes := db.indexesAfter env op

/-- Runs a list of operations. -/
def run (ops : List (Op (Option V) C)) : IndexedDatabase V C :=
  ops.foldl (fun db op => db.step env op) db

omit [LinearOrder V] in
/-- A database without rows, with an index for each `UNIQUE` or `PRIMARY KEY` constraint: its key
columns, and whether NULLs are allowed. -/
def initial (columnCount : ℕ → ℕ) (constraints : ℕ → List (List ℕ × Bool)) :
    IndexedDatabase V C where
  database := Database.initial columnCount
  indexes table := (constraints table).map fun c => { keys := c.1, allowNulls := c.2 }

end IndexedDatabase

/-! ### Committed states -/

/-- The row without the changes of the transactions that are still running: the state before the
oldest version that belongs to one of them. -/
def RowSlot.committed {V : Type*} (running : ℕ → Bool) (slot : RowSlot V) : Option (List V) :=
  VersionChain.select (fun owner => !running owner) slot.current
    (slot.versionPointers.map fun v => (v.pointer.owner, v.tupleData))

end DuckDB
