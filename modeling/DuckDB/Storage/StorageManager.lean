import DuckDB.Transaction.TransactionManager

/-!
# Start-up, recovery and checkpoints

The part of `storage_manager.cpp` and of `WriteAheadLog::Replay` that starts and ends transactions.
`StartUp.ops` lists what opening a database does: the transaction of `Initialize`, the one that
loads the last checkpoint, one for each flushed transaction of the write-ahead log, and the
checkpoint that follows the replay. The contents of the files are left open: what a transaction
creates, appends and changes is given by its `Work`.

`createCheckpoint` starts a transaction through the transaction manager and ends it with
`Transaction::Rollback`, which undoes its changes and tells the manager nothing.
-/

namespace DuckDB

variable {V C : Type*}

/-- What a transaction does between its start and its end. -/
inductive Work (V C : Type*) where
  | beginQuery
  | endQuery
  | pushQuery (query : String)
  | pushCatalogEntry (entry : C)
  | append (table : ℕ) (chunk : DataChunk V)
  | update (table : ℕ) (updates : UpdateChunk V)
  | delete (table : ℕ) (rowIdentifiers : List ℕ)

/-- The same, as an operation of the transaction with the given id. -/
def Work.op (transactionId : ℕ) : Work V C → Op V C
  | .beginQuery => .beginQuery transactionId
  | .endQuery => .endQuery transactionId
  | .pushQuery query => .pushQuery transactionId query
  | .pushCatalogEntry entry => .pushCatalogEntry transactionId entry
  | .append table chunk => .append transactionId table chunk
  | .update table updates => .update transactionId table updates
  | .delete table rowIdentifiers => .delete transactionId table rowIdentifiers

/-- `StorageManager::CreateCheckpoint`. Writing the files only reads the tables. The transaction
is not removed from the active ones. -/
def Database.createCheckpoint (db : Database V C) : Database V C × Option Exception :=
  let transaction : Transaction C :=
    { startTime := db.transactionManager.currentStartTimestamp
      transactionId := db.transactionManager.currentTransactionId }
  match db.transactionManager.startTransaction with
  | (manager, some e) => ({ db with transactionManager := manager }, some e)
  | (manager, none) =>
    ({ transactionManager := manager.setTransaction transaction.clearUndo
       tables := transaction.rollbackUndo db.tables }, none)

/-- What happens to a database: an operation of a transaction, or a checkpoint. -/
inductive SystemOp (V C : Type*) where
  | operation (op : Op V C)
  | createCheckpoint

/-! ### Opening a database -/

/-- The transaction with the given number, from its start to its end. -/
def transactionOps (number : ℕ) (work : List (Work V C)) (last : ℕ → Op V C) :
    List (SystemOp V C) :=
  (.startTransaction :: (work.map (Work.op (transactionIdStart + number)) ++
    [last (transactionIdStart + number)])).map .operation

/-- What `WriteAheadLog::Replay` finds: the flushed transactions it replays, and what it replayed of
the one that failed, if any; it stops there. -/
structure Replay (V C : Type*) where
  flushed : List (List (Work V C))
  failed : Option (List (Work V C)) := none

/-- `WriteAheadLog::Replay`, where the next transaction has the given number. -/
def Replay.ops (number : ℕ) (replay : Replay V C) : List (SystemOp V C) :=
  (replay.flushed.zipIdx number).flatMap (fun (work, i) => transactionOps i work .commit) ++
    replay.failed.elim [] fun work =>
      transactionOps (number + replay.flushed.length) work .rollback

/-- The files of a database: the last checkpoint, and the write-ahead log. -/
structure DatabaseFiles (V C : Type*) where
  storage : Option (List (Work V C)) := none
  wal : Option (Replay V C) := none

/-- `StorageManager::LoadDatabase`: `LoadFromStorage`, and when there is a write-ahead log, its
replay and a checkpoint. -/
def DatabaseFiles.ops (files : DatabaseFiles V C) : List (SystemOp V C) :=
  files.storage.elim [] (fun work => transactionOps 1 work .commit) ++
    files.wal.elim [] fun replay =>
      replay.ops (if files.storage.isSome then 2 else 1) ++ [.createCheckpoint]

/-- How a database is opened: the catalog entries of the base system, and the files, unless the
database is in memory. -/
structure StartUp (V C : Type*) where
  catalogEntries : List C := []
  files : Option (DatabaseFiles V C) := none

/-- `StorageManager::Initialize`. -/
def StartUp.ops (startUp : StartUp V C) : List (SystemOp V C) :=
  transactionOps 0 (startUp.catalogEntries.map .pushCatalogEntry) .commit ++
    startUp.files.elim [] DatabaseFiles.ops

end DuckDB
