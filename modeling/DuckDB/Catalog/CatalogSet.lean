import DuckDB.Transaction.TransactionManager

/-!
# Catalog sets

`catalog_set.cpp` keeps, for each name, a chain of versions of the entry: the newest one is in the
map `data`, each version owns the one it replaced (`child`) and knows the one that replaced it
(`parent`). `CreateEntry`, `AlterEntry` and `DropEntry` put a version on top of the chain and save
a pointer to the version below it in the undo buffer of the transaction; commit, rollback and
cleanup of an undo buffer (`undo_buffer.cpp`) go from such a pointer to its parent.

The type `E` of what an entry holds is left open. A catalog set is shared by transactions that the
transaction manager of `transaction_manager.cpp` starts and ends.
-/

namespace DuckDB

variable {E : Type*}

/-- `class CatalogEntry`: one version of an entry. The address tells the objects apart, and a
version without value has `deleted` set (a dropped entry, or the dummy below a first version). -/
structure CatalogVersion (E : Type*) where
  address : ℕ
  value : Option E
  timestamp : ℕ
  parent : Option ℕ
deriving DecidableEq, Repr

/-- `CatalogEntry *`, as the undo buffer keeps it; the entry knows its name. -/
structure EntryPointer where
  name : String
  address : ℕ
deriving DecidableEq, Repr

/-- `class CatalogSet`: the versions of each name, newest first. A name without versions is not in
the map. -/
structure CatalogSet (E : Type*) where
  data : String → List (CatalogVersion E) := fun _ => []
  nextAddress : ℕ := 0

/-! ### Chains of versions -/

namespace CatalogVersion

/-- `entry->parent` of the version with the given address. -/
def parentOf (versions : List (CatalogVersion E)) (address : ℕ) : Option ℕ :=
  (versions.find? (·.address = address)).bind (·.parent)

/-- Gives the version a timestamp. -/
def setTimestamp (timestamp : ℕ) (v : CatalogVersion E) : CatalogVersion E :=
  { v with timestamp := timestamp }

/-- `UndoBuffer::Commit` on one entry: `catalog_entry->parent->timestamp = commit_id`. -/
def commit (commitId : ℕ) (versions : List (CatalogVersion E)) (address : ℕ) :
    List (CatalogVersion E) :=
  versions.map fun v =>
    if some v.address = parentOf versions address then v.setTimestamp commitId else v

/-- `CatalogSet::Undo`: the parent of the entry is taken out of the chain, and the entry gets the
parent of the removed version. -/
def undo (versions : List (CatalogVersion E)) (address : ℕ) : List (CatalogVersion E) :=
  match parentOf versions address with
  | none => versions
  | some removed =>
    (versions.filter (·.address ≠ removed)).map fun v =>
      if v.address = address then { v with parent := parentOf versions removed } else v

/-- `UndoBuffer::Cleanup` on one entry: `catalog_entry->parent->child = move(catalog_entry->child)`.
The parent pointer of the child is left as it is. -/
def cleanup (versions : List (CatalogVersion E)) (address : ℕ) : List (CatalogVersion E) :=
  match parentOf versions address with
  | none => versions
  | some _ => versions.filter (·.address ≠ address)

/-- `CatalogSet::GetEntryForTransaction`. -/
def getEntryForTransaction {C : Type*} (transaction : Transaction C) :
    List (CatalogVersion E) → Option (CatalogVersion E)
  | [] => none
  | [current] => some current
  | current :: child :: older =>
    -- our own version, or one that was committed before we started
    if transaction.sees current.timestamp then some current
    else getEntryForTransaction transaction (child :: older)

/-- The newest version is one of another transaction that is still active. -/
def conflicts {C : Type*} (transaction : Transaction C) (current : CatalogVersion E) : Bool :=
  decide (transactionIdStart ≤ current.timestamp) && current.timestamp != transaction.transactionId

end CatalogVersion

/-! ### The operations of the catalog set -/

namespace CatalogSet

/-- The exception of `CreateEntry`, `AlterEntry` and `DropEntry`. -/
def conflict (operation name : String) : Exception :=
  .transactionException ("Catalog write-write conflict on " ++ operation ++ " with \"" ++ name ++
    "\"")

/-- `CatalogSet::GetEntry`. -/
def getEntry {C : Type*} (transaction : Transaction C) (name : String) (set : CatalogSet E) :
    Option E :=
  (CatalogVersion.getEntryForTransaction transaction (set.data name)).bind (·.value)

/-- The new version of an entry: it goes on top of `current`, whose address goes into the undo
buffer. -/
def push (transaction : Transaction EntryPointer) (name : String) (value : Option E)
    (current : CatalogVersion E) (older : List (CatalogVersion E)) (set : CatalogSet E) :
    Transaction EntryPointer × CatalogSet E :=
  (transaction.pushCatalogEntry ⟨name, current.address⟩,
    { data := Function.update set.data name
        (⟨set.nextAddress, value, transaction.transactionId, none⟩ ::
          { current with parent := some set.nextAddress } :: older)
      nextAddress := set.nextAddress + 1 })

/-- The dummy node of `CreateEntry`, so that older transactions do not see the first version. -/
def dummyNode (set : CatalogSet E) : CatalogVersion E :=
  ⟨set.nextAddress, none, 0, none⟩

/-- `CatalogSet::CreateEntry`. -/
def createEntry (name : String) (value : E) (transaction : Transaction EntryPointer)
    (set : CatalogSet E) : (Transaction EntryPointer × CatalogSet E) × Except Exception Bool :=
  match set.data name with
  | [] =>
    (push transaction name (some value) set.dummyNode []
      { set with nextAddress := set.nextAddress + 1 }, .ok true)
  | current :: older =>
    if current.conflicts transaction then ((transaction, set), .error (conflict "create" name))
    else if current.value.isSome then ((transaction, set), .ok false)
    else (push transaction name (some value) current older set, .ok true)

/-- `CatalogSet::AlterEntry`. `alter` is the virtual `AlterEntry` of the entry; a deleted version
has the one of the base class. -/
def alterEntry (name : String) (alter : E → Except Exception E)
    (transaction : Transaction EntryPointer) (set : CatalogSet E) :
    (Transaction EntryPointer × CatalogSet E) × Except Exception Bool :=
  match set.data name with
  | [] => ((transaction, set), .ok false)
  | current :: older =>
    if current.conflicts transaction then ((transaction, set), .error (conflict "alter" name))
    else
      match current.value with
      | none =>
        ((transaction, set), .error (.catalogException "Unsupported alter type for catalog entry!"))
      | some entry =>
        match alter entry with
        | .error e => ((transaction, set), .error e)
        | .ok value => (push transaction name (some value) current older set, .ok true)

/-- `CatalogSet::DropEntry`. `dependents` is what `DropDependents` or `HasDependents` of the entry
throws; the entries that depend on it are in other catalog sets. -/
def dropEntry (name : String) (dependents : E → Option Exception)
    (transaction : Transaction EntryPointer) (set : CatalogSet E) :
    (Transaction EntryPointer × CatalogSet E) × Except Exception Bool :=
  match set.data name with
  | [] => ((transaction, set), .ok false)
  | current :: older =>
    if current.conflicts transaction then ((transaction, set), .error (conflict "drop" name))
    else
      match current.value with
      | none => ((transaction, set), .ok false)
      | some entry =>
        match dependents entry with
        | some e => ((transaction, set), .error e)
        | none => (push transaction name none current older set, .ok true)

/-- Runs an operation on the versions of the entry that an undo entry points to. -/
def onEntry (f : List (CatalogVersion E) → ℕ → List (CatalogVersion E)) (set : CatalogSet E) :
    UndoEntry EntryPointer → CatalogSet E
  | .catalogEntry entry =>
    { set with data := Function.update set.data entry.name (f (set.data entry.name) entry.address) }
  | _ => set

end CatalogSet

/-! ### The transactions of a catalog set -/

namespace Transaction

/-- The catalog side of `UndoBuffer::Commit`. -/
def commitEntries (commitId : ℕ) (transaction : Transaction EntryPointer) (set : CatalogSet E) :
    CatalogSet E :=
  transaction.undoBuffer.foldl (CatalogSet.onEntry (CatalogVersion.commit commitId)) set

/-- The catalog side of `UndoBuffer::Rollback`. -/
def rollbackEntries (transaction : Transaction EntryPointer) (set : CatalogSet E) :
    CatalogSet E :=
  transaction.undoBuffer.reverse.foldl (CatalogSet.onEntry CatalogVersion.undo) set

/-- The catalog side of `UndoBuffer::Cleanup`. -/
def cleanupEntries (set : CatalogSet E) (transaction : Transaction EntryPointer) :
    CatalogSet E :=
  transaction.undoBuffer.foldl (CatalogSet.onEntry CatalogVersion.cleanup) set

end Transaction

/-- A catalog set and the transactions that work on it. -/
structure CatalogState (E : Type*) where
  transactionManager : TransactionManager EntryPointer := {}
  set : CatalogSet E := {}

/-- A change of one entry. -/
inductive CatalogWrite (E : Type*) where
  | create (value : E)
  | alter (info : E → Except Exception E)
  | drop (dependents : E → Option Exception)

/-- What a transaction can do with the catalog set. -/
inductive CatalogOp (E : Type*) where
  | startTransaction
  | beginQuery (transactionId : ℕ)
  | endQuery (transactionId : ℕ)
  | write (transactionId : ℕ) (name : String) (write : CatalogWrite E)
  | commit (transactionId : ℕ)
  | rollback (transactionId : ℕ)

/-- `CreateEntry`, `AlterEntry` or `DropEntry`. -/
def CatalogWrite.apply (name : String) :
    CatalogWrite E → Transaction EntryPointer → CatalogSet E →
      (Transaction EntryPointer × CatalogSet E) × Except Exception Bool
  | .create value => CatalogSet.createEntry name value
  | .alter info => CatalogSet.alterEntry name info
  | .drop dependents => CatalogSet.dropEntry name dependents

namespace CatalogState

/-- `RemoveTransaction` with its `Cleanup` calls. -/
def removeTransaction (transaction : Transaction EntryPointer) (s : CatalogState E) :
    CatalogState E where
  transactionManager := s.transactionManager.removeTransaction transaction
  set := (s.transactionManager.cleanable transaction).foldl Transaction.cleanupEntries s.set

/-- `TransactionManager::CommitTransaction`, without a write-ahead log. -/
def commitTransaction (transaction : Transaction EntryPointer) (s : CatalogState E) :
    CatalogState E :=
  let commitId := s.transactionManager.currentStartTimestamp
  removeTransaction { transaction with commitId := commitId }
    { transactionManager := { s.transactionManager with currentStartTimestamp := commitId + 1 }
      set := transaction.commitEntries commitId s.set }

/-- `TransactionManager::RollbackTransaction`. -/
def rollbackTransaction (transaction : Transaction EntryPointer) (s : CatalogState E) :
    CatalogState E :=
  removeTransaction transaction.clearUndo { s with set := transaction.rollbackEntries s.set }

/-- Runs an operation of the active transaction with the given id. -/
def withActive (transactionId : ℕ) (s : CatalogState E)
    (operation : Transaction EntryPointer → CatalogState E) : CatalogState E :=
  match s.transactionManager.active? transactionId with
  | none => s
  | some transaction => operation transaction

/-- One whole operation. -/
def step (s : CatalogState E) : CatalogOp E → CatalogState E
  | .startTransaction =>
    { s with transactionManager := s.transactionManager.startTransaction.1 }
  | .beginQuery id => s.withActive id fun transaction =>
    let number := s.transactionManager.currentQueryNumber
    { s with
      transactionManager :=
        { s.transactionManager.setTransaction { transaction with activeQuery := number } with
          currentQueryNumber := number + 1 } }
  | .endQuery id => s.withActive id fun transaction =>
    { s with
      transactionManager := s.transactionManager.setTransaction
        { transaction with activeQuery := maximumQueryId } }
  | .write id name write => s.withActive id fun transaction =>
    let result := (write.apply name transaction s.set).1
    { transactionManager := s.transactionManager.setTransaction result.1
      set := result.2 }
  | .commit id => s.withActive id s.commitTransaction
  | .rollback id => s.withActive id s.rollbackTransaction

/-- Runs a list of operations; one that throws leaves what it did behind, and the run goes on. -/
def run (s : CatalogState E) (ops : List (CatalogOp E)) : CatalogState E :=
  ops.foldl step s

end CatalogState

end DuckDB
