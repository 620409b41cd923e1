import DuckDB.Common.Constants
import Mathlib.Data.List.Basic

/-!
# Storage chunks, rows and version chains

A `StorageChunk` holds up to `storageChunkSize` rows. Each row slot has the newest column values,
a `deleted` flag and the head of a chain of `VersionInformation` nodes. A node holds the tuple as
it was *before* a change (`tupleData`, or `none` when there was no tuple before) and the number of
the change: the id of the transaction that made it, replaced by the commit id at commit.

The source links the nodes through `next` and `prev`; the nodes themselves live in the undo buffer
of the transaction that made the change. Here a chain is the list of its nodes, head first, and a
node is named by its place in an undo buffer (`VersionPointer`). `info->chunk` is set exactly for
the head of a chain, so the test `if (info->chunk)` reads `isHead`.
-/

namespace DuckDB

/-- The address of a version: entry `index` of the undo buffer of transaction `owner`. -/
structure VersionPointer where
  owner : ℕ
  index : ℕ
deriving DecidableEq, Repr

/-- `struct VersionInformation`: `tupleData = none` is the null pointer. -/
structure VersionInformation (V : Type*) where
  pointer : VersionPointer
  versionNumber : ℕ
  tupleData : Option (List V)
deriving DecidableEq, Repr

/-- One row of a storage chunk: its column values, its `deleted` flag and its version chain. -/
structure RowSlot (V : Type*) where
  columns : List V
  deleted : Bool
  versionPointers : List (VersionInformation V)
deriving DecidableEq, Repr

namespace RowSlot

variable {V : Type*}

/-- The newest state of the row, as the base table holds it. -/
def current (row : RowSlot V) : Option (List V) :=
  if row.deleted then none else some row.columns

/-- The version at the head of the chain (`version_pointers[id]`). -/
def head? (row : RowSlot V) : Option (VersionInformation V) :=
  row.versionPointers.head?

/-- Whether the version at `pointer` is the head of the chain (`info->chunk` is set). -/
def isHead (pointer : VersionPointer) (row : RowSlot V) : Bool :=
  row.head?.any (·.pointer == pointer)

/-- The storage side of `Transaction::PushTuple`: the current tuple is saved in a new head. -/
def pushTuple (pointer : VersionPointer) (transactionId : ℕ) (row : RowSlot V) : RowSlot V :=
  { row with versionPointers := ⟨pointer, transactionId, some row.columns⟩ :: row.versionPointers }

/-- `chunk->deleted[id] = true`. -/
def setDeleted (row : RowSlot V) : RowSlot V :=
  { row with deleted := true }

/-- The `memcpy` of one column of `DataTable::Update`. -/
def setColumn (column : ℕ) (value : V) (row : RowSlot V) : RowSlot V :=
  { row with columns := row.columns.set column value }

/-- Takes the version at `pointer` out of the chain. -/
def unlink (pointer : VersionPointer) (row : RowSlot V) : RowSlot V :=
  { row with versionPointers := row.versionPointers.eraseP (·.pointer == pointer) }

/-- `StorageChunk::Cleanup` for the head of a chain, and the unlinking of an inner version in
`UndoBuffer::Cleanup`: either way the version leaves the chain and nothing else changes. -/
def cleanup (pointer : VersionPointer) (row : RowSlot V) : RowSlot V :=
  row.unlink pointer

/-- `StorageChunk::Undo`: the head's tuple goes back into the base table and the head leaves the
chain. A head without tuple data undoes an insertion. -/
def undo (row : RowSlot V) : RowSlot V :=
  match row.versionPointers with
  | [] => row
  | info :: next =>
    match info.tupleData with
    | none => { row with deleted := true, versionPointers := next }
    | some tuple => { columns := tuple, deleted := false, versionPointers := next }

/-- One tuple entry of `UndoBuffer::Rollback`: `StorageChunk::Undo` for the head of the chain,
plain unlinking for an inner version. -/
def rollback (pointer : VersionPointer) (row : RowSlot V) : RowSlot V :=
  if row.isHead pointer then row.undo else row.unlink pointer

/-- `info->version_number = commit_id` of `UndoBuffer::Commit`. -/
def setVersionNumber (pointer : VersionPointer) (commitId : ℕ) (row : RowSlot V) : RowSlot V :=
  { row with
    versionPointers := row.versionPointers.map fun v =>
      if v.pointer = pointer then { v with versionNumber := commitId } else v }

/-- The slot `Transaction::PushDeletedEntries` and `CopyToStorage` leave for an appended row. -/
def inserted (pointer : VersionPointer) (transactionId : ℕ) (tuple : List V) : RowSlot V :=
  { columns := tuple, deleted := false, versionPointers := [⟨pointer, transactionId, none⟩] }

end RowSlot

/-- A storage chunk: `start` is the row number of its first row. -/
structure StorageChunk (V : Type*) where
  start : ℕ
  rows : List (RowSlot V)
deriving DecidableEq, Repr

namespace StorageChunk

variable {V : Type*}

/-- The number of rows in the chunk. -/
def count (chunk : StorageChunk V) : ℕ :=
  chunk.rows.length

/-- The test of `GetChunk`: the row number lies in this chunk. -/
def holds (chunk : StorageChunk V) (row : ℕ) : Bool :=
  decide (chunk.start ≤ row ∧ row < chunk.start + chunk.count)

/-- Changes the row at offset `index` of the chunk. -/
def modifyRow (index : ℕ) (f : RowSlot V → RowSlot V) (chunk : StorageChunk V) : StorageChunk V :=
  { chunk with rows := chunk.rows.modify index f }

end StorageChunk

/-- The chunks follow each other without gap or overlap, the first one starting at `start`. -/
def Contiguous {V : Type*} : ℕ → List (StorageChunk V) → Prop
  | _, [] => True
  | start, chunk :: rest => chunk.start = start ∧ Contiguous (start + chunk.count) rest

end DuckDB
