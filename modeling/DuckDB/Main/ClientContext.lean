import DuckDB.Transaction.TransactionManager

/-!
# Queries and removals of transactions, step by step

`ClientContext::Query` takes a number for each query and stores it in the `active_query` of its
transaction; `FinalizeQuery` clears it again. Neither takes the `transaction_lock`, under which
`RemoveTransaction` reads the active queries, has versions unlinked and frees undo buffers, so that
other connections can start and finish queries in between. `QueryStep` lists the steps that can
interleave.

The state also notes which queries are running, and for each transaction whose versions have been
unlinked, which queries were running at that moment.
-/

namespace DuckDB

variable {C : Type*}

/-- A query: the transaction it runs in and its number. -/
structure QueryId where
  transactionId : ℕ
  number : ℕ
deriving DecidableEq, Repr

/-- A call of `RemoveTransaction`: the transaction, and `lowest_active_query` once the loop over the
active transactions is done. -/
structure Removal where
  transactionId : ℕ
  lowestActiveQuery : Option ℕ := none
deriving DecidableEq, Repr

namespace TransactionManager

/-- The rest of `RemoveTransaction`, given what the loop found. -/
def collect (lowestActiveQuery : ℕ) (transaction : Transaction C) (manager : TransactionManager C) :
    TransactionManager C :=
  { manager.removeTransaction transaction with
    oldTransactions :=
      if (manager.others transaction.transactionId).isEmpty then []
      else (manager.awaitingGC transaction).dropWhile (·.highestActiveQuery < lowestActiveQuery) }

/-- The transactions whose undo memory it frees. -/
def freed (lowestActiveQuery : ℕ) (transaction : Transaction C) (manager : TransactionManager C) :
    List (Transaction C) :=
  if (manager.others transaction.transactionId).isEmpty then manager.awaitingGC transaction
  else (manager.awaitingGC transaction).takeWhile (·.highestActiveQuery < lowestActiveQuery)

end TransactionManager

/-- The transaction manager; the query numbers that were taken and not yet stored; the removal that
holds the `transaction_lock`; the queries that are running; and for each transaction whose versions
were unlinked, the queries that were running then. -/
structure QueryState (C : Type*) where
  manager : TransactionManager C := {}
  taken : List QueryId := []
  removal : Option Removal := none
  running : List QueryId := []
  unlinked : List (ℕ × List QueryId) := []
deriving DecidableEq, Repr

/-- The steps of the connections. `CommitTransaction` and `RollbackTransaction` take the lock and
are followed by `scanActive`, the loop of `RemoveTransaction`, and `collect`, its rest. -/
inductive QueryStep (C : Type*) where
  | startTransaction
  | getQueryNumber (transactionId : ℕ)
  | setActiveQuery (transactionId : ℕ)
  | finalizeQuery (transactionId : ℕ)
  | createEntry (transactionId : ℕ) (entry : UndoEntry C)
  | commitTransaction (transactionId : ℕ)
  | rollbackTransaction (transactionId : ℕ)
  | scanActive
  | collect

namespace QueryState

/-- The connection of the transaction is inside `RemoveTransaction`. -/
def isEnding (s : QueryState C) (transactionId : ℕ) : Bool :=
  s.removal.any (·.transactionId = transactionId)

/-- The connection of the transaction has taken a query number or is running a query. `Query`
finishes an open result before it takes a number. -/
def isBusy (s : QueryState C) (transactionId : ℕ) : Bool :=
  (s.taken ++ s.running).any (·.transactionId = transactionId)

/-- One step. A step that has to wait, or whose connection is doing something else, changes
nothing. -/
def step (s : QueryState C) : QueryStep C → QueryState C
  | .startTransaction =>
    if s.removal.isSome then s else { s with manager := s.manager.startTransaction.1 }
  | .getQueryNumber id =>
    if s.isEnding id || s.isBusy id || (s.manager.active? id).isNone then s
    else
      { s with
        manager :=
          { s.manager with currentQueryNumber := s.manager.currentQueryNumber + 1 }
        taken := s.taken ++ [⟨id, s.manager.currentQueryNumber⟩] }
  | .setActiveQuery id =>
    if s.isEnding id || s.running.any (·.transactionId = id) then s
    else
      match s.manager.active? id, s.taken.find? (·.transactionId = id) with
      | some transaction, some query =>
        { s with
          manager := s.manager.setTransaction { transaction with activeQuery := query.number }
          taken := s.taken.erase query
          running := s.running ++ [query] }
      | _, _ => s
  | .finalizeQuery id =>
    if s.isEnding id then s
    else
      { s with
        manager := (s.manager.active? id).elim s.manager fun transaction =>
          s.manager.setTransaction { transaction with activeQuery := maximumQueryId }
        running := s.running.filter (·.transactionId ≠ id) }
  | .createEntry id entry =>
    if s.isEnding id then s
    else
      { s with
        manager := (s.manager.active? id).elim s.manager fun transaction =>
          s.manager.setTransaction (transaction.createEntry entry) }
  | .commitTransaction id =>
    if s.removal.isSome then s
    else
      (s.manager.active? id).elim s fun transaction =>
        let commitId := s.manager.currentStartTimestamp
        { s with
          manager :=
            { s.manager.setTransaction { transaction with commitId := commitId } with
              currentStartTimestamp := commitId + 1 }
          removal := some { transactionId := id } }
  | .rollbackTransaction id =>
    if s.removal.isSome then s
    else
      (s.manager.active? id).elim s fun transaction =>
        { s with
          manager := s.manager.setTransaction transaction.clearUndo
          removal := some { transactionId := id }
          unlinked := s.unlinked ++ [(id, s.running)] }
  | .scanActive =>
    match s.removal with
    | some ⟨id, none⟩ =>
      { s with
        removal := some ⟨id, some (TransactionManager.lowestActiveQuery (s.manager.others id))⟩ }
    | _ => s
  | .collect =>
    match s.removal with
    | some ⟨id, some lowest⟩ =>
      (s.manager.active? id).elim s fun transaction =>
        { s with
          manager := s.manager.collect lowest transaction
          removal := none
          unlinked := s.unlinked ++
            (s.manager.cleanable transaction).map fun t => (t.transactionId, s.running) }
    | _ => s

/-- The transactions whose undo memory a step frees. -/
def freed (s : QueryState C) : QueryStep C → List (Transaction C)
  | .collect =>
    match s.removal with
    | some ⟨id, some lowest⟩ =>
      (s.manager.active? id).elim [] fun transaction => s.manager.freed lowest transaction
    | _ => []
  | _ => []

end QueryState

end DuckDB
