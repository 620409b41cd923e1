import DuckDB.Catalog.CatalogSet
import DuckDB.Theory.Run

/-!
# Histories of a catalog set

`CatalogState.events` lists what an operation does: the version it writes, a commit or a rollback.
A `CatalogHistory` collects the versions that each transaction has written.
`CatalogHistory.snapshot` is the entry that a transaction is meant to see under a name: the version
it wrote last, and otherwise the version committed last before it started.
-/

namespace DuckDB

variable {E : Type*}

/-- A version of the entry with the given name; no value stands for a dropped entry. -/
abbrev NamedVersion (E : Type*) := String × Option E

/-- What a transaction does to a catalog set. -/
inductive CatalogEvent (E : Type*) where
  | write (owner : ℕ) (version : NamedVersion E)
  | commit (owner commitId : ℕ)
  | rollback (owner : ℕ)
deriving DecidableEq, Repr

/-- The version that `CreateEntry`, `AlterEntry` or `DropEntry` has put on top of the chain. -/
def CatalogWrite.written (name : String) (write : CatalogWrite E)
    (transaction : Transaction EntryPointer) (set : CatalogSet E) : List (NamedVersion E) :=
  match write.apply name transaction set with
  | (after, .ok true) => ((after.2.data name).take 1).map fun version => (name, version.value)
  | _ => []

namespace CatalogState

/-- What `op` does in the state `s`. -/
def events (s : CatalogState E) : CatalogOp E → List (CatalogEvent E)
  | .write id name write =>
    (s.transactionManager.active? id).elim [] fun transaction =>
      (write.written name transaction s.set).map (.write id)
  | .commit id =>
    (s.transactionManager.active? id).elim [] fun _ =>
      [.commit id s.transactionManager.currentStartTimestamp]
  | .rollback id =>
    (s.transactionManager.active? id).elim [] fun _ => [.rollback id]
  | _ => []

/-- Everything that happens in a run. -/
def trace (s : CatalogState E) (ops : List (CatalogOp E)) : List (CatalogEvent E) :=
  Theory.trace step events s ops

end CatalogState

/-- The versions that a committed transaction wrote, in program order. -/
structure CommittedVersions (E : Type*) where
  commitId : ℕ
  versions : List (NamedVersion E)
deriving DecidableEq, Repr

/-- The committed transactions, in commit order, and the versions of the running ones. -/
structure CatalogHistory (E : Type*) where
  committed : List (CommittedVersions E) := []
  pending : ℕ → List (NamedVersion E) := fun _ => []

namespace CatalogHistory

/-- Adds an event to the history. -/
def record (h : CatalogHistory E) : CatalogEvent E → CatalogHistory E
  | .write owner version =>
    { h with pending := Function.update h.pending owner (h.pending owner ++ [version]) }
  | .commit owner commitId =>
    { committed := h.committed ++ [⟨commitId, h.pending owner⟩]
      pending := Function.update h.pending owner [] }
  | .rollback owner => { h with pending := Function.update h.pending owner [] }

/-- The history of a run. -/
def ofTrace (events : List (CatalogEvent E)) : CatalogHistory E :=
  events.foldl record {}

end CatalogHistory

/-- The versions of one name. -/
def versionsOf (name : String) (versions : List (NamedVersion E)) : List (Option E) :=
  (versions.filter (·.1 = name)).map (·.2)

namespace CatalogHistory

/-- The versions of a name that were committed before the given time, in commit order. -/
def committedBefore (h : CatalogHistory E) (time : ℕ) (name : String) : List (Option E) :=
  (h.committed.filter (·.commitId < time)).flatMap fun c => versionsOf name c.versions

/-- **The entry a transaction is meant to see**: the version it wrote last itself, otherwise the
version that was committed last before it started, otherwise none. -/
def snapshot (h : CatalogHistory E) (transactionId startTime : ℕ) (name : String) : Option E :=
  ((versionsOf name (h.pending transactionId)).getLast?.or
    (h.committedBefore startTime name).getLast?).join

end CatalogHistory

end DuckDB
