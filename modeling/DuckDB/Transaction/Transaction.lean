import DuckDB.Common.Constants
import Mathlib.Data.List.Basic

/-!
# Transactions and their undo buffers

A `Transaction` carries its start time, its id, its commit id (`0` until it commits) and the undo
buffer: the list of what it changed, oldest entry first. The type `C` of catalog entries is left
open here; the storage layer never looks inside one.
-/

namespace DuckDB

/-- The tuple kinds of `enum class UndoFlags`. -/
inductive TupleFlag where
  | insertTuple
  | deleteTuple
  | updateTuple
deriving DecidableEq, Repr

/-- `struct UndoEntry`. A tuple entry names the row its `VersionInformation` belongs to. -/
inductive UndoEntry (C : Type*) where
  | emptyEntry
  | catalogEntry (entry : C)
  | tuple (flag : TupleFlag) (table row : ℕ)
  | query (text : String)
deriving DecidableEq, Repr

/-- `class Transaction`. -/
structure Transaction (C : Type*) where
  startTime : ℕ
  transactionId : ℕ
  commitId : ℕ := 0
  highestActiveQuery : ℕ := 0
  activeQuery : ℕ := maximumQueryId
  undoBuffer : List (UndoEntry C) := []
deriving DecidableEq, Repr

namespace Transaction

variable {C : Type*}

/-- `UndoBuffer::CreateEntry`. -/
def createEntry (entry : UndoEntry C) (transaction : Transaction C) : Transaction C :=
  { transaction with undoBuffer := transaction.undoBuffer ++ [entry] }

/-- `Transaction::PushCatalogEntry`. -/
def pushCatalogEntry (entry : C) (transaction : Transaction C) : Transaction C :=
  transaction.createEntry (.catalogEntry entry)

/-- `Transaction::PushQuery`. -/
def pushQuery (query : String) (transaction : Transaction C) : Transaction C :=
  transaction.createEntry (.query query)

/-- The undo entry the next `CreateEntry` will fill is number `undoBuffer.length`. -/
def nextIndex (transaction : Transaction C) : ℕ :=
  transaction.undoBuffer.length

/-- The version check of `Scan` and `Fetch`: a change with this number is the transaction's own or
was committed before it started. -/
def sees (transaction : Transaction C) (versionNumber : ℕ) : Bool :=
  versionNumber == transaction.transactionId || decide (versionNumber < transaction.startTime)

end Transaction

end DuckDB
