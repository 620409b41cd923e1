import DuckDB.Storage.UniqueIndex

/-!
# The locks of a unique index check

`AddEntry` takes a shared lock on the storage chunk of every equal entry that it looks at, unless
that is the last chunk: its callers are supposed to have the lock of the last chunk.
`DataTable::Append` has the exclusive lock of the last chunk, `DataTable::Update` that of the chunk
of its first row.

The functions of this file go through the same entries as those of `UniqueIndex` and record the rows
that are looked at.
-/

namespace DuckDB

open Theory

variable {V C : Type*}

namespace DataTable

/-- The position of the chunk that `GetChunk` returns. -/
def chunkIndex (t : DataTable V) (row : ℕ) : Option ℕ :=
  t.chunks.findIdx? (·.holds row)

/-- The position of `tail_chunk`. -/
def tailIndex (t : DataTable V) : ℕ :=
  t.chunks.length - 1

/-- The chunks on which `AddEntry` requests a shared lock when it looks at the given rows. -/
def sharedLocks (t : DataTable V) (rows : List ℕ) : List ℕ :=
  (rows.filterMap t.chunkIndex).filter (· ≠ t.tailIndex)

end DataTable

namespace UniqueIndex

variable [LinearOrder V]

/-- The rows that the loop of `AddEntry` looks at. -/
def visited (conflict : ℕ → Except Exception Bool) (tuple : List (Option V)) :
    SearchTree (List (Option V)) UniqueIndexNode → List ℕ
  | .leaf => []
  | .node left entry node right =>
    let rest :=
      if SearchTree.goesLeft entry tuple then visited conflict tuple left
      else visited conflict tuple right
    if compare entry tuple = .eq then
      match conflict node.rowIdentifier with
      | .ok false => node.rowIdentifier :: rest
      | _ => [node.rowIdentifier]
    else rest

/-- The rows that `AddEntries` looks at. -/
def visitedByEntries (allocator : Allocator) (transaction : Transaction C) (ignored : List ℕ)
    (t : DataTable (Option V)) (index : UniqueIndex V) :
    List (IndexEntry V) → AddedEntries V → List ℕ
  | [], _ => []
  | entry :: entries, added =>
    if entry.hasNull then
      if index.allowNulls then visitedByEntries allocator transaction ignored t index entries added
      else []
    else
      let conflict := conflicts transaction index.keys ignored t entry.tuple
      visited conflict entry.tuple added.root.nodes ++
        match addEntry allocator conflict entry.tuple entry.rowIdentifier added with
        | .ok (some added) => visitedByEntries allocator transaction ignored t index entries added
        | _ => []

/-- The rows that the loop over the indexes looks at. -/
def visitedByIndexes (allocator : Allocator) (transaction : Transaction C) (ignored : List ℕ)
    (t : DataTable (Option V)) (prepare : UniqueIndex V → Except Exception (List (IndexEntry V))) :
    List (UniqueIndex V) → List ℕ
  | [] => []
  | index :: indexes =>
    match prepare index with
    | .error _ => []
    | .ok entries =>
      visitedByEntries allocator transaction ignored t index entries { root := index.root } ++
        match (addEntries allocator transaction ignored t index entries { root := index.root }).2 with
        | some _ => []
        | none => visitedByIndexes allocator transaction ignored t prepare indexes

end UniqueIndex

/-- The operations that add entries. -/
inductive KeyOperation (V : Type*) where
  | append (chunk : DataChunk (Option V))
  | update (updates : UpdateChunk (Option V))

namespace KeyOperation

/-- The chunk whose exclusive lock the operation has. -/
def held (t : DataTable (Option V)) : KeyOperation V → Option ℕ
  | .append _ => some t.tailIndex
  | .update updates => updates.rowIdentifiers.head?.bind t.chunkIndex

/-- The chunks on which shared locks are requested during the operation. -/
def requested [LinearOrder V] (allocator : Allocator) (underNull : ℕ → ℕ → V)
    (transaction : Transaction C) (t : DataTable (Option V)) (indexes : List (UniqueIndex V)) :
    KeyOperation V → List ℕ
  | .append chunk =>
    t.sharedLocks (UniqueIndex.visitedByIndexes allocator transaction [] t
      (UniqueIndex.appendEntries chunk (t.tailChunk.start + t.tailChunk.count)) indexes)
  | .update updates =>
    t.sharedLocks (UniqueIndex.visitedByIndexes allocator transaction updates.rowIdentifiers t
      (UniqueIndex.updateEntries underNull updates t) indexes)

end KeyOperation

end DuckDB
