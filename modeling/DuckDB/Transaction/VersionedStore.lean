import DuckDB.Storage.DataTable
import DuckDB.Theory.Run
import DuckDB.Theory.VersionChain

/-!
# The abstract multi-version store

What the storage and the transaction manager are for, without undo buffers, version pointers and
storage chunks. A row has its current values and one `Record` for each transaction whose change
can still be undone or hidden: who made it, its version number, and the row before it. Commit,
rollback and cleanup of a transaction act on all its records at once.

`Event` is one thing a transaction does; `Allowed` says when it may happen and `Store.apply` what it
does. `Store.Invariant` is what all stores reached by allowed events have in common: a row has at
most one uncommitted record, the newest one, and below it the commit ids decrease.
-/

namespace DuckDB

open Theory

variable {V : Type*}

/-! ### Changes of rows -/

/-- One change of one row: a new row, a change that saves the row and leaves its values alone (the
first half of `Update`), one new column value, or a deletion. -/
inductive RowWrite (V : Type*) where
  | insert (tuple : List V)
  | touch
  | set (column : ℕ) (value : V)
  | delete
deriving DecidableEq, Repr

namespace RowWrite

/-- What a change does to the state of a row; `none` is a row that does not exist. -/
def apply : RowWrite V → Option (List V) → Option (List V)
  | insert tuple, _ => some tuple
  | touch, state => state
  | set column value, state => state.map (·.set column value)
  | delete, _ => none

/-- Whether the change makes a new row. -/
def isInsert : RowWrite V → Bool
  | insert _ => true
  | _ => false

end RowWrite

/-- A change and the row it is made to. -/
structure Change (V : Type*) where
  table : ℕ
  row : ℕ
  write : RowWrite V
deriving DecidableEq, Repr

/-! ### Rows with records -/

/-- The column values and the `deleted` flag of a row. -/
structure RowState (V : Type*) where
  columns : List V
  deleted : Bool
deriving DecidableEq, Repr

/-- The tuple the row stands for, if any. -/
def RowState.tuple? (state : RowState V) : Option (List V) :=
  if state.deleted then none else some state.columns

/-- The change that one transaction made to a row: the transaction, the version number of the
change, and the row before it. -/
structure Record (V : Type*) where
  owner : ℕ
  number : ℕ
  before : RowState V
deriving DecidableEq, Repr

/-- The record as an entry of a version chain. -/
def Record.entry (r : Record V) : (ℕ × ℕ) × Option (List V) :=
  ((r.owner, r.number), r.before.tuple?)

/-- A row, with the records of its changes, newest first. -/
structure VersionedRow (V : Type*) where
  state : RowState V
  records : List (Record V)
deriving DecidableEq, Repr

namespace VersionedRow

/-- The newest state of the row. -/
def current (row : VersionedRow V) : Option (List V) :=
  row.state.tuple?

/-- The newest change is the one of `owner`. -/
def ownedBy (owner : ℕ) (row : VersionedRow V) : Bool :=
  row.records.head?.any (·.owner == owner)

/-- The newest change is an uncommitted one of another transaction. -/
def conflicts (owner : ℕ) (row : VersionedRow V) : Bool :=
  row.records.head?.any fun r => decide (transactionIdStart ≤ r.number) && r.number != owner

/-- Makes sure that the row has a record of `owner`. The record does not keep the `deleted` flag:
undoing it gives a row that is not deleted. -/
def save (owner : ℕ) (row : VersionedRow V) : VersionedRow V :=
  if row.ownedBy owner then row
  else { row with records := ⟨owner, owner, ⟨row.state.columns, false⟩⟩ :: row.records }

/-- What a change does to the values of an existing row. -/
def change (w : RowWrite V) (state : RowState V) : RowState V :=
  match w with
  | .set column value => { state with columns := state.columns.set column value }
  | .delete => { state with deleted := true }
  | _ => state

/-- A change of an existing row. -/
def write (owner : ℕ) (w : RowWrite V) (row : VersionedRow V) : VersionedRow V :=
  { row.save owner with state := change w row.state }

/-- The row an insertion leaves. -/
def inserted (owner : ℕ) (tuple : List V) : VersionedRow V :=
  { state := ⟨tuple, false⟩, records := [⟨owner, owner, ⟨tuple, true⟩⟩] }

/-- `owner` commits: its record gets the commit id. -/
def commit (owner commitId : ℕ) (row : VersionedRow V) : VersionedRow V :=
  { row with
    records := row.records.map fun r =>
      if r.owner = owner then { r with number := commitId } else r }

/-- `owner` rolls back: if the newest change is its own, it is undone. -/
def rollback (owner : ℕ) (row : VersionedRow V) : VersionedRow V :=
  match row.records with
  | [] => row
  | r :: older => if r.owner = owner then ⟨r.before, older⟩ else row

/-- The record of `owner` is dropped. -/
def cleanup (owner : ℕ) (row : VersionedRow V) : VersionedRow V :=
  { row with records := row.records.filter (·.owner ≠ owner) }

/-- What a reader that sees the given version numbers gets. -/
def read (sees : ℕ → Bool) (row : VersionedRow V) : Option (List V) :=
  VersionChain.select (fun tag : ℕ × ℕ => sees tag.2) row.current (row.records.map Record.entry)

/-- Where the reader gets it from. -/
def choose (sees : ℕ → Bool) (row : VersionedRow V) : DataTable.RowChoice V :=
  if row.records.head?.all (sees ·.number) then if row.state.deleted then .skip else .base
  else
    match row.read sees with
    | none => .skip
    | some tuple => .alternate tuple

end VersionedRow

/-! ### The store -/

/-- A transaction that is running. -/
structure Running where
  transactionId : ℕ
  startTime : ℕ
deriving DecidableEq, Repr

/-- A transaction with the given id is running. -/
def Runs (active : List Running) (owner : ℕ) : Prop :=
  ∃ a ∈ active, a.transactionId = owner

/-- A transaction that has committed. -/
structure Finished where
  transactionId : ℕ
  commitId : ℕ
deriving DecidableEq, Repr

/-- The store: the next timestamp and transaction id, the running transactions, the committed ones
whose records are still there (oldest first), and the rows of each table. -/
structure Store (V : Type*) where
  clock : ℕ := 0
  nextId : ℕ := transactionIdStart
  active : List Running := []
  recent : List Finished := []
  rows : ℕ → List (VersionedRow V) := fun _ => []

/-- What a transaction does. -/
inductive Event (V : Type*) where
  | start
  | write (owner : ℕ) (change : Change V)
  | commit (owner startTime commitId : ℕ)
  | rollback (owner : ℕ)
deriving DecidableEq, Repr

namespace Store

/-- Changes all rows. -/
def mapRows (f : VersionedRow V → VersionedRow V) (s : Store V) : Store V :=
  { s with rows := fun table => (s.rows table).map f }

/-- The smallest start time of the running transactions. -/
def lowestStartTime (active : List Running) : ℕ :=
  active.foldl (fun lowest a => min lowest a.startTime) transactionIdStart

/-- Drops the records of the oldest committed transaction. -/
def cleanOldest (s : Store V) : Store V :=
  match s.recent with
  | [] => s
  | oldest :: rest => { s.mapRows (·.cleanup oldest.transactionId) with recent := rest }

/-- Drops the records of the committed transactions that all running ones see. -/
def clean (s : Store V) : Store V :=
  (s.recent.takeWhile (·.commitId < lowestStartTime s.active)).foldl (fun s _ => s.cleanOldest) s

/-- Takes a transaction off the running ones. -/
def retire (owner : ℕ) (s : Store V) : Store V :=
  { s with active := s.active.filter (·.transactionId ≠ owner) }

/-- A commit, before anything is cleaned up. -/
def commitRows (owner commitId : ℕ) (s : Store V) : Store V :=
  { (s.mapRows (·.commit owner commitId)).retire owner with
    clock := commitId + 1
    recent := s.recent ++ [⟨owner, commitId⟩] }

/-- A rollback, before anything is cleaned up. -/
def rollbackRows (owner : ℕ) (s : Store V) : Store V :=
  (s.mapRows (·.rollback owner)).retire owner

/-- A change of a row. -/
def writeRow (owner : ℕ) (change : Change V) (s : Store V) : Store V :=
  { s with
    rows := Function.update s.rows change.table <|
      match change.write with
      | .insert tuple => s.rows change.table ++ [.inserted owner tuple]
      | w => (s.rows change.table).modify change.row (·.write owner w) }

/-- A new transaction. -/
def start (s : Store V) : Store V :=
  { s with
    clock := s.clock + 1
    nextId := s.nextId + 1
    active := s.active ++ [⟨s.nextId, s.clock⟩] }

/-- One event. -/
def apply (s : Store V) : Event V → Store V
  | .start => s.start
  | .write owner change => s.writeRow owner change
  | .commit owner _ commitId => (s.commitRows owner commitId).clean
  | .rollback owner => (s.rollbackRows owner).clean

/-- When a change may be made: a new row comes last, and an existing one has no conflict. -/
def Writable (s : Store V) (owner : ℕ) (change : Change V) : Prop :=
  match change.write with
  | .insert _ => change.row = (s.rows change.table).length
  | _ => ∃ row, (s.rows change.table)[change.row]? = some row ∧ row.conflicts owner = false

/-- When an event may happen. -/
def Allowed (s : Store V) : Event V → Prop
  | .start => s.clock < transactionIdStart
  | .write owner change => Runs s.active owner ∧ s.Writable owner change
  | .commit owner startTime commitId => ⟨owner, startTime⟩ ∈ s.active ∧ commitId = s.clock
  | .rollback owner => Runs s.active owner

end Store

end DuckDB
