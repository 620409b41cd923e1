import DuckDB.Storage.DataTable

/-!
# The transaction manager and the storage under it

`Database` puts the transaction manager and the tables together. The undo buffer operations
`commit`, `rollback` and `cleanup` (`undo_buffer.cpp`) change the rows that the entries of one
transaction name; the transaction manager (`transaction_manager.cpp`) hands out start times and ids
and decides when a committed transaction's undo buffer is cleaned up.

`step` runs one whole operation. The only calls of `Cleanup` are those of `removeTransaction`, so
cleaning up is part of `commit` and `rollback` and not an operation of its own.
-/

namespace DuckDB

variable {V C : Type*}

/-- The tables of the database, by number. -/
abbrev Tables (V : Type*) := ℕ → DataTable V

/-- Changes one table. -/
def Tables.modifyTable (table : ℕ) (f : DataTable V → DataTable V) (tables : Tables V) : Tables V :=
  Function.update tables table (f (tables table))

/-- Changes one row of one table. -/
def Tables.modifyRow (table row : ℕ) (f : RowSlot V → RowSlot V) (tables : Tables V) : Tables V :=
  tables.modifyTable table (·.modifyRow row f)

/-- The row with a given number in a given table. -/
def Tables.row? (tables : Tables V) (table row : ℕ) : Option (RowSlot V) :=
  (tables table).row? row

/-! ### The undo buffer -/

namespace Transaction

/-- One entry of `UndoBuffer::Commit`: the version gets the commit id, and the cardinality of the
table is updated. -/
def commitEntry (owner commitId : ℕ) (tables : Tables V) (entry : UndoEntry C × ℕ) : Tables V :=
  match entry.1 with
  | .tuple flag table row =>
    (tables.modifyRow table row (RowSlot.setVersionNumber ⟨owner, entry.2⟩ commitId)).modifyTable
      table (DataTable.countCommit flag)
  | _ => tables

/-- The storage side of `UndoBuffer::Commit`. -/
def commitUndo (commitId : ℕ) (transaction : Transaction C) (tables : Tables V) : Tables V :=
  transaction.undoBuffer.zipIdx.foldl (commitEntry transaction.transactionId commitId) tables

/-- One entry of `UndoBuffer::Rollback`. -/
def rollbackEntry (owner : ℕ) (tables : Tables V) (entry : UndoEntry C × ℕ) : Tables V :=
  match entry.1 with
  | .tuple _ table row => tables.modifyRow table row (RowSlot.rollback ⟨owner, entry.2⟩)
  | _ => tables

/-- `UndoBuffer::Rollback`: the entries are undone from the last to the first. -/
def rollbackUndo (transaction : Transaction C) (tables : Tables V) : Tables V :=
  transaction.undoBuffer.zipIdx.reverse.foldl (rollbackEntry transaction.transactionId) tables

/-- What `Rollback` leaves in the undo buffer: empty entries only. -/
def clearUndo (transaction : Transaction C) : Transaction C :=
  { transaction with undoBuffer := transaction.undoBuffer.map fun _ => .emptyEntry }

/-- One entry of `UndoBuffer::Cleanup`. -/
def cleanupEntry (owner : ℕ) (tables : Tables V) (entry : UndoEntry C × ℕ) : Tables V :=
  match entry.1 with
  | .tuple _ table row => tables.modifyRow table row (RowSlot.cleanup ⟨owner, entry.2⟩)
  | _ => tables

/-- `UndoBuffer::Cleanup`: the entries are unlinked from the first to the last. -/
def cleanupUndo (tables : Tables V) (transaction : Transaction C) : Tables V :=
  transaction.undoBuffer.zipIdx.foldl (cleanupEntry transaction.transactionId) tables

end Transaction

/-! ### The transaction manager -/

/-- `class TransactionManager`. -/
structure TransactionManager (C : Type*) where
  currentQueryNumber : ℕ := 1
  currentStartTimestamp : ℕ := 0
  currentTransactionId : ℕ := transactionIdStart
  activeTransactions : List (Transaction C) := []
  recentlyCommittedTransactions : List (Transaction C) := []
  oldTransactions : List (Transaction C) := []
deriving DecidableEq, Repr

/-- The transaction manager and the tables. -/
structure Database (V C : Type*) where
  transactionManager : TransactionManager C := {}
  tables : Tables V

namespace TransactionManager

/-- The active transaction with a given id. -/
def active? (manager : TransactionManager C) (transactionId : ℕ) : Option (Transaction C) :=
  manager.activeTransactions.find? (·.transactionId = transactionId)

/-- The active transactions other than the one with the given id. -/
def others (manager : TransactionManager C) (transactionId : ℕ) : List (Transaction C) :=
  manager.activeTransactions.filter (·.transactionId ≠ transactionId)

/-- Stores a changed transaction object back into the list of active transactions. -/
def setTransaction (transaction : Transaction C) (manager : TransactionManager C) :
    TransactionManager C :=
  { manager with
    activeTransactions := manager.activeTransactions.map fun t =>
      if t.transactionId = transaction.transactionId then transaction else t }

/-- The exception of `StartTransaction`. -/
def ranOut : Exception :=
  .exception "Cannot start more transactions, ran out of transaction identifiers!"

/-- `TransactionManager::StartTransaction`. -/
def startTransaction (manager : TransactionManager C) :
    TransactionManager C × Option Exception :=
  if transactionIdStart ≤ manager.currentStartTimestamp then (manager, some ranOut)
  else
    ({ manager with
        currentStartTimestamp := manager.currentStartTimestamp + 1
        currentTransactionId := manager.currentTransactionId + 1
        activeTransactions := manager.activeTransactions ++
          [{ startTime := manager.currentStartTimestamp
             transactionId := manager.currentTransactionId }] }, none)

/-- `lowest_start_time` of `RemoveTransaction`. -/
def lowestStartTime (others : List (Transaction C)) : ℕ :=
  others.foldl (fun lowest t => min lowest t.startTime) transactionIdStart

/-- `lowest_active_query` of `RemoveTransaction`. -/
def lowestActiveQuery (others : List (Transaction C)) : ℕ :=
  others.foldl (fun lowest t => min lowest t.activeQuery) maximumQueryId

/-- The recently committed transactions once `transaction` has been removed from the active ones:
it joins them when it has a commit id. -/
def recentlyCommitted (manager : TransactionManager C) (transaction : Transaction C) :
    List (Transaction C) :=
  if transaction.commitId ≠ 0 then manager.recentlyCommittedTransactions ++ [transaction]
  else manager.recentlyCommittedTransactions

/-- The recently committed transactions that `RemoveTransaction` cleans up. -/
def cleanable (manager : TransactionManager C) (transaction : Transaction C) :
    List (Transaction C) :=
  (manager.recentlyCommitted transaction).takeWhile
    (·.commitId < lowestStartTime (manager.others transaction.transactionId))

/-- The transactions awaiting GC, after an aborted `transaction` and the cleaned up ones joined
them and before any of them is freed. -/
def awaitingGC (manager : TransactionManager C) (transaction : Transaction C) :
    List (Transaction C) :=
  (if transaction.commitId ≠ 0 then manager.oldTransactions
    else manager.oldTransactions ++
      [{ transaction with highestActiveQuery := manager.currentQueryNumber }]) ++
    (manager.cleanable transaction).map
      ({ · with highestActiveQuery := manager.currentQueryNumber })

/-- `TransactionManager::RemoveTransaction` without the `Cleanup` calls. -/
def removeTransaction (transaction : Transaction C) (manager : TransactionManager C) :
    TransactionManager C :=
  let others := manager.others transaction.transactionId
  { manager with
    activeTransactions := others
    recentlyCommittedTransactions := (manager.recentlyCommitted transaction).dropWhile
      (·.commitId < lowestStartTime others)
    oldTransactions :=
      if others.isEmpty then []
      else (manager.awaitingGC transaction).dropWhile
        (·.highestActiveQuery < lowestActiveQuery others) }

end TransactionManager

/-! ### Whole operations -/

/-- The operations a client can run. `beginQuery` and `endQuery` set `active_query` as
`ClientContext::Query` and `FinalizeQuery` do. -/
inductive Op (V C : Type*) where
  | startTransaction
  | beginQuery (transactionId : ℕ)
  | endQuery (transactionId : ℕ)
  | pushQuery (transactionId : ℕ) (query : String)
  | pushCatalogEntry (transactionId : ℕ) (entry : C)
  | append (transactionId table : ℕ) (chunk : DataChunk V)
  | update (transactionId table : ℕ) (updates : UpdateChunk V)
  | delete (transactionId table : ℕ) (rowIdentifiers : List ℕ)
  | commit (transactionId : ℕ)
  | rollback (transactionId : ℕ)

namespace Database

/-- The row with a given number in a given table. -/
def row? (db : Database V C) (table row : ℕ) : Option (RowSlot V) :=
  db.tables.row? table row

/-- `RemoveTransaction` with its `Cleanup` calls. -/
def removeTransaction (transaction : Transaction C) (db : Database V C) : Database V C where
  transactionManager := db.transactionManager.removeTransaction transaction
  tables := (db.transactionManager.cleanable transaction).foldl Transaction.cleanupUndo db.tables

/-- `TransactionManager::CommitTransaction`, without a write-ahead log. -/
def commitTransaction (transaction : Transaction C) (db : Database V C) : Database V C :=
  let commitId := db.transactionManager.currentStartTimestamp
  let committed := { transaction with commitId := commitId }
  removeTransaction committed
    { transactionManager :=
        { db.transactionManager with currentStartTimestamp := commitId + 1 }
      tables := transaction.commitUndo commitId db.tables }

/-- `TransactionManager::RollbackTransaction`. -/
def rollbackTransaction (transaction : Transaction C) (db : Database V C) : Database V C :=
  removeTransaction transaction.clearUndo
    { db with tables := transaction.rollbackUndo db.tables }

/-- Runs a table operation of `transaction` on one table. -/
def onTable (table : ℕ) (db : Database V C) (transaction : Transaction C)
    (operation : Transaction C → DataTable V → Transaction C × DataTable V × Option Exception) :
    Database V C × Option Exception :=
  let result := operation transaction (db.tables table)
  ({ transactionManager := db.transactionManager.setTransaction result.1
     tables := Function.update db.tables table result.2.1 }, result.2.2)

/-- Runs an operation of the active transaction with the given id (`ActiveTransaction` asserts that
there is one). -/
def withActive (transactionId : ℕ) (db : Database V C)
    (operation : Transaction C → Database V C × Option Exception) :
    Database V C × Option Exception :=
  match db.transactionManager.active? transactionId with
  | none => (db, some .assertion)
  | some transaction => operation transaction

/-- One whole operation. -/
def step (checks : ℕ → TableChecks V C) (db : Database V C) :
    Op V C → Database V C × Option Exception
  | .startTransaction =>
    ({ db with transactionManager := db.transactionManager.startTransaction.1 },
      db.transactionManager.startTransaction.2)
  | .beginQuery id => db.withActive id fun transaction =>
    let number := db.transactionManager.currentQueryNumber
    ({ db with
        transactionManager :=
          { db.transactionManager.setTransaction { transaction with activeQuery := number } with
            currentQueryNumber := number + 1 } }, none)
  | .endQuery id => db.withActive id fun transaction =>
    ({ db with
        transactionManager := db.transactionManager.setTransaction
          { transaction with activeQuery := maximumQueryId } }, none)
  | .pushQuery id query => db.withActive id fun transaction =>
    ({ db with
        transactionManager := db.transactionManager.setTransaction
          (transaction.pushQuery query) }, none)
  | .pushCatalogEntry id entry => db.withActive id fun transaction =>
    ({ db with
        transactionManager := db.transactionManager.setTransaction
          (transaction.pushCatalogEntry entry) }, none)
  | .append id table chunk => db.withActive id fun transaction =>
    db.onTable table transaction (DataTable.append (checks table) table chunk)
  | .update id table updates => db.withActive id fun transaction =>
    db.onTable table transaction (DataTable.update (checks table) table updates)
  | .delete id table rowIdentifiers => db.withActive id fun transaction =>
    db.onTable table transaction (DataTable.delete table rowIdentifiers)
  | .commit id => db.withActive id fun transaction => (db.commitTransaction transaction, none)
  | .rollback id => db.withActive id fun transaction => (db.rollbackTransaction transaction, none)

/-- A database without rows. -/
def initial (columnCount : ℕ → ℕ) : Database V C where
  tables table := DataTable.empty (columnCount table)

/-- Runs a list of operations; an operation that throws leaves what it did behind, and the run goes
on. -/
def run (checks : ℕ → TableChecks V C) (db : Database V C) (ops : List (Op V C)) : Database V C :=
  ops.foldl (fun db op => (db.step checks op).1) db

end Database

end DuckDB
