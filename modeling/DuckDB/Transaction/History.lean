import DuckDB.Transaction.TransactionManager
import DuckDB.Transaction.VersionedStore

/-!
# What an operation does, and histories

`Database.events` lists what an operation does, as events of the abstract store: the changes that
`Append`, `Update` and `Delete` make (all of them, or those before the exception), starts, commits
and rollbacks. A `History` collects the changes of every transaction; `History.snapshot` is the row
state that a transaction is meant to see: the changes of the transactions that committed before it
started, in commit order, followed by its own.
-/

namespace DuckDB

open Theory

variable {V C : Type*}

/-! ### Changes made by an operation -/

namespace DataTable

/-- The rows that an `Append` adds: all or none. -/
def appendedRows (checks : TableChecks V C) (chunk : DataChunk V) (transaction : Transaction C)
    (t : DataTable V) : List (List V) :=
  if chunk.rows.any (·.length != t.columnCount) || (checks.verifyAppend t chunk).isSome ||
      (checks.uniqueAppend transaction t chunk).isSome then []
  else chunk.rows

/-- The row can be changed: it lies in the given chunk and there is no conflict. -/
def pushable (transaction : Transaction C) (t : DataTable V) (chunk : StorageChunk V) (row : ℕ) :
    Bool :=
  (if chunk.holds row then t.row? row else none).any fun slot => !conflicts transaction slot

/-- The rows that `Delete` and `Update` save in the undo buffer: those before the first one that
cannot be changed. -/
def pushedRows (transaction : Transaction C) (t : DataTable V) (rowIdentifiers : List ℕ) : List ℕ :=
  match rowIdentifiers with
  | [] => []
  | first :: _ =>
    match t.getChunk first with
    | none => []
    | some chunk => rowIdentifiers.takeWhile (pushable transaction t chunk)

/-- The changes of `Append`. -/
def appendChanges (checks : TableChecks V C) (table : ℕ) (chunk : DataChunk V)
    (transaction : Transaction C) (t : DataTable V) : List (Change V) :=
  ((appendedRows checks chunk transaction t).zipIdx t.rows.length).map fun (tuple, row) =>
    ⟨table, row, .insert tuple⟩

/-- The changes of `Delete`. -/
def deleteChanges (table : ℕ) (rowIdentifiers : List ℕ) (transaction : Transaction C)
    (t : DataTable V) : List (Change V) :=
  (pushedRows transaction t rowIdentifiers).map fun row => ⟨table, row, .delete⟩

/-- The changes of `Update`: the rows are saved first; the values are written if that succeeds for
all of them. -/
def updateChanges (checks : TableChecks V C) (table : ℕ) (updates : UpdateChunk V)
    (transaction : Transaction C) (t : DataTable V) : List (Change V) :=
  if (checks.verifyUpdate t updates).isSome || (checks.uniqueUpdate transaction t updates).isSome
  then []
  else
    ((pushedRows transaction t updates.rowIdentifiers).map fun row => ⟨table, row, .touch⟩) ++
      if pushedRows transaction t updates.rowIdentifiers = updates.rowIdentifiers then
        updates.cells.map fun (row, column, value) => ⟨table, row, .set column value⟩
      else []

end DataTable

namespace Database

/-- What `op` does in the database `db`. -/
def events (checks : ℕ → TableChecks V C) (db : Database V C) (op : Op V C) : List (Event V) :=
  match op with
  | .startTransaction =>
    if transactionIdStart ≤ db.transactionManager.currentStartTimestamp then [] else [.start]
  | .append id table chunk =>
    (db.transactionManager.active? id).elim [] fun transaction =>
      (DataTable.appendChanges (checks table) table chunk transaction (db.tables table)).map
        (.write id)
  | .update id table updates =>
    (db.transactionManager.active? id).elim [] fun transaction =>
      (DataTable.updateChanges (checks table) table updates transaction (db.tables table)).map
        (.write id)
  | .delete id table rowIdentifiers =>
    (db.transactionManager.active? id).elim [] fun transaction =>
      (DataTable.deleteChanges table rowIdentifiers transaction (db.tables table)).map (.write id)
  | .commit id =>
    (db.transactionManager.active? id).elim [] fun transaction =>
      [.commit id transaction.startTime db.transactionManager.currentStartTimestamp]
  | .rollback id =>
    (db.transactionManager.active? id).elim [] fun _ => [.rollback id]
  | _ => []

/-- Everything that happens in a run. -/
def trace (checks : ℕ → TableChecks V C) (db : Database V C) (ops : List (Op V C)) :
    List (Event V) :=
  Theory.trace (fun db op => (db.step checks op).1) (events checks) db ops

end Database

/-! ### Histories -/

/-- A committed transaction and its changes, in program order. -/
structure CommittedTransaction (V : Type*) where
  transactionId : ℕ
  startTime : ℕ
  commitId : ℕ
  changes : List (Change V)
deriving DecidableEq, Repr

/-- The committed transactions, in commit order, and the changes of the running ones. -/
structure History (V : Type*) where
  committed : List (CommittedTransaction V) := []
  pending : ℕ → List (Change V) := fun _ => []

namespace History

/-- Adds an event to the history. -/
def record (h : History V) : Event V → History V
  | .start => h
  | .write owner change =>
    { h with pending := Function.update h.pending owner (h.pending owner ++ [change]) }
  | .commit owner startTime commitId =>
    { committed := h.committed ++ [⟨owner, startTime, commitId, h.pending owner⟩]
      pending := Function.update h.pending owner [] }
  | .rollback owner => { h with pending := Function.update h.pending owner [] }

/-- The history of a run. -/
def ofTrace (events : List (Event V)) : History V :=
  events.foldl record {}

end History

/-- The changes of one row. -/
def onRow (table row : ℕ) (changes : List (Change V)) : List (Change V) :=
  changes.filter fun c => c.table = table ∧ c.row = row

/-- What a list of changes does to one row. -/
def applyTo (table row : ℕ) (changes : List (Change V)) (state : Option (List V)) :
    Option (List V) :=
  (onRow table row changes).foldl (fun state c => c.write.apply state) state

namespace History

/-- **The snapshot of a transaction**: the changes of the transactions with a commit id smaller than
its start time, in commit order, followed by its own changes in program order. -/
def snapshot (h : History V) (transactionId startTime table row : ℕ) : Option (List V) :=
  applyTo table row (h.pending transactionId) ((h.committed.filter (·.commitId < startTime)).foldl
      (fun state c => applyTo table row c.changes state) none)

end History

end DuckDB
