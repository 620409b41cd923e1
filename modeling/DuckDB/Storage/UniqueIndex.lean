import DuckDB.Storage.DataTable
import DuckDB.Theory.SearchTree
import Mathlib.Data.List.MinMax

/-!
# Unique indexes

`UniqueIndex` follows `unique_index.cpp`. An index keeps one tree entry for every key that a row
has or had; whether an entry stands for a row that still has this key is decided from the base table
and the version chain of the row (`conflicts`). `Append` and `Update` add the entries of a whole
chunk, index by index; if one cannot be added, the destructor of `UniqueIndexAddedEntries` removes
the ones that were, newest first.

The values of a table are `Option V`, with `none` for NULL. `TupleSerializer::Compare` compares the
key columns one after the other, so keys are compared as lists.
-/

namespace DuckDB

open Theory

variable {V C : Type*} [LinearOrder V]

/-- `struct UniqueIndexNode` at its address, without the tuple and the children: these belong to the
tree. -/
structure UniqueIndexNode where
  address : ℕ
  rowIdentifier : ℕ
  parent : Option ℕ
deriving DecidableEq, Repr

/-- The nodes that an index owns; they all have their own address. -/
structure IndexTree (V : Type*) where
  nodes : SearchTree (List (Option V)) UniqueIndexNode
  distinct : (nodes.values.map (·.address)).Nodup
deriving DecidableEq

/-- Where `make_unique` puts a new node: anywhere but at an address in use. -/
structure Allocator where
  allocate : List ℕ → ℕ
  fresh : ∀ used, allocate used ∉ used

/-- The allocator that takes the address after the highest one in use. -/
def Allocator.bump : Allocator where
  allocate used := used.foldr max 0 + 1
  fresh used hmem := by
    have hle : ∀ a ∈ used, a ≤ used.foldr max 0 := fun a ha => List.le_max_of_le' 0 ha le_rfl
    exact absurd (hle _ hmem) (by omega)

namespace IndexTree

omit [LinearOrder V] in
/-- An index without a root. -/
def empty : IndexTree V := ⟨.leaf, .nil⟩

omit [LinearOrder V] in
/-- The addresses in use. -/
def addresses (tree : IndexTree V) : List ℕ :=
  tree.nodes.values.map (·.address)

/-- The rows of the entries with the given key. -/
def onPath (tree : IndexTree V) (key : List (Option V)) : List ℕ :=
  (tree.nodes.onPath key).map (·.rowIdentifier)

/-- The node for a new entry, below the last node on the path. -/
def newNode (allocator : Allocator) (tuple : List (Option V)) (row : ℕ) (tree : IndexTree V) :
    UniqueIndexNode where
  address := allocator.allocate tree.addresses
  rowIdentifier := row
  parent := (tree.nodes.lastOnPath tuple none).map (·.address)

/-- The tree with a new entry. -/
def place (allocator : Allocator) (tuple : List (Option V)) (row : ℕ) (tree : IndexTree V) :
    IndexTree V where
  nodes := tree.nodes.place tuple (tree.newNode allocator tuple row)
  distinct := by
    rw [((SearchTree.values_place ..).map _).nodup_iff, List.map_cons, List.nodup_cons]
    exact ⟨allocator.fresh _, tree.distinct⟩

omit [LinearOrder V] in
/-- `UniqueIndex::RemoveEntry`. -/
def removeNode (entry : ℕ) (nodes : SearchTree (List (Option V)) UniqueIndexNode) :
    SearchTree (List (Option V)) UniqueIndexNode :=
  match nodes.subtree? UniqueIndexNode.address entry with
  | some (.node left key node right) =>
    match node.parent, left, right with
    | none, left, right => (SearchTree.node left key node right).removeRoot
    | some parent, .leaf, .leaf => nodes.resetChild UniqueIndexNode.address parent entry
    -- `assert(0)`: a node with children below the root
    | some _, _, _ => nodes
  | _ => nodes

omit [LinearOrder V] in
theorem values_removeNode (entry : ℕ) (nodes : SearchTree (List (Option V)) UniqueIndexNode) :
    (removeNode entry nodes).values.Subperm nodes.values := by
  fun_cases removeNode entry nodes with
  | case1 key node hparent left right hsubtree =>
    exact (SearchTree.values_removeRoot _).trans (SearchTree.values_subtree? _ hsubtree).subperm
  | case2 => exact (SearchTree.values_resetChild ..).subperm
  | case3 => exact List.Subperm.refl _
  | case4 => exact List.Subperm.refl _

omit [LinearOrder V] in
/-- The tree without an entry. -/
def removeEntry (tree : IndexTree V) (entry : ℕ) : IndexTree V where
  nodes := removeNode entry tree.nodes
  distinct := by
    obtain ⟨values, hperm, hsublist⟩ := values_removeNode entry tree.nodes
    exact (hperm.map _).nodup_iff.1 ((hsublist.map _).nodup tree.distinct)

end IndexTree

/-- `class UniqueIndex`: the key columns, whether NULLs are allowed (`UNIQUE`) or not
(`PRIMARY KEY`), and the root of the tree. -/
structure UniqueIndex (V : Type*) where
  keys : List ℕ
  allowNulls : Bool
  root : IndexTree V := .empty
deriving DecidableEq

/-- A key to be added for a row; `hasNull` is its entry in `has_null`. -/
structure IndexEntry (V : Type*) where
  tuple : List (Option V)
  hasNull : Bool
  rowIdentifier : ℕ
deriving DecidableEq, Repr

/-- The new value of the column `columnIds[j]` for the row `rowIdentifiers[k]`. -/
def UpdateChunk.value {V : Type*} (updates : UpdateChunk (Option V)) (j k : ℕ) : Option V :=
  (updates.data[j]?.bind (·[k]?)).join

namespace UniqueIndex

/-- The exception for a NULL in a primary key. -/
def nullKey : Exception :=
  .constraintException "PRIMARY KEY column cannot contain NULL values!"

/-- The exception for a key that exists. -/
def duplicateKey : Exception :=
  .constraintException "PRIMARY KEY or UNIQUE constraint violated: duplicated key"

omit [LinearOrder V] in
/-- The key columns of a row. -/
def keyOf (keys : List ℕ) (columns : List (Option V)) : List (Option V) :=
  keys.map fun column => columns[column]?.join

/-- The key of a row, unless it has a NULL. -/
def key? (keys : List ℕ) (columns : List (Option V)) : Option (List (Option V)) :=
  if none ∈ keyOf keys columns then none else some (keyOf keys columns)

/-! ### AddEntry and RemoveEntry -/

/-- The loop of `AddEntry` over a version chain: the key is that of a version, from the newest one
down to the one that the transaction uses. -/
def versionsConflict (transaction : Transaction C) (keys : List ℕ) (tuple : List (Option V)) :
    VersionInformation (Option V) → List (VersionInformation (Option V)) → Bool
  | version, [] => version.tupleData.any fun data => keyOf keys data = tuple
  | version, next :: rest =>
    if version.tupleData.any fun data => keyOf keys data = tuple then true
    else if next.versionNumber = transaction.transactionId then false
    else if next.versionNumber < transaction.startTime then false
    else versionsConflict transaction keys tuple next rest

/-- Whether a new entry conflicts with an equal one that belongs to the row `row`. The base table
is not looked at when the row is about to be updated; the versions are not looked at when the
transaction uses the base table. -/
def conflicts (transaction : Transaction C) (keys ignored : List ℕ) (t : DataTable (Option V))
    (tuple : List (Option V)) (row : ℕ) : Except Exception Bool :=
  match t.row? row with
  | none => .error DataTable.outOfBounds
  | some slot =>
    if row ∉ ignored ∧ slot.deleted = false ∧ keyOf keys slot.columns = tuple then .ok true
    else
      match slot.versionPointers with
      | [] => .ok false
      | version :: rest =>
        if transaction.sees version.versionNumber then .ok false
        else .ok (versionsConflict transaction keys tuple version rest)

/-- The loop of `AddEntry`: every equal entry on the path is checked, until one conflicts. -/
def traverse (conflict : ℕ → Except Exception Bool) (tuple : List (Option V)) :
    SearchTree (List (Option V)) UniqueIndexNode → Except Exception Bool
  | .leaf => .ok false
  | .node left entry node right =>
    match if compare entry tuple = .eq then conflict node.rowIdentifier else .ok false with
    | .error e => .error e
    | .ok true => .ok true
    | .ok false =>
      if SearchTree.goesLeft entry tuple then traverse conflict tuple left
      else traverse conflict tuple right

/-- A tree and the nodes that were added to it, newest first (`UniqueIndexAddedEntries`). -/
structure AddedEntries (V : Type*) where
  root : IndexTree V
  nodes : List ℕ := []
deriving DecidableEq

/-- `UniqueIndex::AddEntry`; `none` is the null pointer, for a conflict. -/
def addEntry (allocator : Allocator) (conflict : ℕ → Except Exception Bool)
    (tuple : List (Option V)) (row : ℕ) (added : AddedEntries V) :
    Except Exception (Option (AddedEntries V)) :=
  match traverse conflict tuple added.root.nodes with
  | .error e => .error e
  | .ok true => .ok none
  | .ok false =>
    .ok (some ⟨added.root.place allocator tuple row,
      (added.root.newNode allocator tuple row).address :: added.nodes⟩)

omit [LinearOrder V] in
/-- `~UniqueIndexAddedEntries`, with `RemoveEntry` for each node. -/
def AddedEntries.removeAll (added : AddedEntries V) : IndexTree V :=
  added.nodes.foldl IndexTree.removeEntry added.root

/-! ### Append and Update -/

/-- `UniqueIndex::AddEntries`. -/
def addEntries (allocator : Allocator) (transaction : Transaction C) (ignored : List ℕ)
    (t : DataTable (Option V)) (index : UniqueIndex V) :
    List (IndexEntry V) → AddedEntries V → AddedEntries V × Option Exception
  | [], added => (added, none)
  | entry :: entries, added =>
    if entry.hasNull then
      if index.allowNulls then addEntries allocator transaction ignored t index entries added
      else (added, some nullKey)
    else
      match addEntry allocator (conflicts transaction index.keys ignored t entry.tuple) entry.tuple
          entry.rowIdentifier added with
      | .error e => (added, some e)
      | .ok none => (added, some duplicateKey)
      | .ok (some added) => addEntries allocator transaction ignored t index entries added

/-- The loop over the indexes that `Append` and `Update` share; `prepare` computes the entries for
an index. When an index fails, what was added to it and to the indexes before it is removed. -/
def addToIndexes (allocator : Allocator) (transaction : Transaction C) (ignored : List ℕ)
    (t : DataTable (Option V)) (prepare : UniqueIndex V → Except Exception (List (IndexEntry V))) :
    List (UniqueIndex V) → List (UniqueIndex V) × Option Exception
  | [] => ([], none)
  | index :: indexes =>
    match prepare index with
    | .error e => (index :: indexes, some e)
    | .ok entries =>
      let added := addEntries allocator transaction ignored t index entries { root := index.root }
      match added.2 with
      | some e => ({ index with root := added.1.removeAll } :: indexes, some e)
      | none =>
        let rest := addToIndexes allocator transaction ignored t prepare indexes
        match rest.2 with
        | some e => ({ index with root := added.1.removeAll } :: rest.1, some e)
        | none => ({ index with root := added.1.root } :: rest.1, none)

/-- The entry of an appended row. -/
def appendEntry (index : UniqueIndex V) (columns : List (Option V)) (row : ℕ) : IndexEntry V where
  tuple := keyOf index.keys columns
  hasNull := decide (none ∈ keyOf index.keys columns)
  rowIdentifier := row

/-- The entries of an appended chunk, whose first row gets the number `start`. -/
def appendEntries (chunk : DataChunk (Option V)) (start : ℕ) (index : UniqueIndex V) :
    Except Exception (List (IndexEntry V)) :=
  let entries := (chunk.rows.zipIdx start).map fun e => appendEntry index e.1 e.2
  if !index.allowNulls && entries.any (·.hasNull) then .error nullKey else .ok entries

/-- `UniqueIndex::Append`. -/
def append (allocator : Allocator) (transaction : Transaction C) (t : DataTable (Option V))
    (chunk : DataChunk (Option V)) (indexes : List (UniqueIndex V)) :
    List (UniqueIndex V) × Option Exception :=
  addToIndexes allocator transaction [] t
    (appendEntries chunk (t.tailChunk.start + t.tailChunk.count)) indexes

/-- `affected_columns`: where each key column stands in the list of updated columns, if it does. -/
def affectedColumns (columnIds : List ℕ) (index : UniqueIndex V) : List (Option ℕ) :=
  index.keys.map fun column => columnIds.idxOf? column

/-- One tuple of `SerializeUpdate`: updated columns come from the chunk, where `underNull` are the
bytes under a NULL, the other ones from the base table. -/
def serializeUpdate (underNull : ℕ → ℕ → V) (updates : UpdateChunk (Option V))
    (t : DataTable (Option V)) (index : UniqueIndex V) (row k : ℕ) : List (Option V) :=
  (index.keys.zip (affectedColumns updates.columnIds index)).map fun
    | (column, none) => (t.row? row).bind fun slot => slot.columns[column]?.join
    | (_, some j) => some ((updates.value j k).getD (underNull j k))

/-- The entry of the row `rowIdentifiers[k]` of an update; only the updated columns are looked at
for NULLs. -/
def updateEntry (underNull : ℕ → ℕ → V) (updates : UpdateChunk (Option V))
    (t : DataTable (Option V)) (index : UniqueIndex V) (row k : ℕ) : IndexEntry V where
  tuple := serializeUpdate underNull updates t index row k
  hasNull := (affectedColumns updates.columnIds index).any fun affected =>
    affected.any fun j => (updates.value j k).isNone
  rowIdentifier := row

/-- The entries of an update: none if no key column is updated. -/
def updateEntries (underNull : ℕ → ℕ → V) (updates : UpdateChunk (Option V))
    (t : DataTable (Option V)) (index : UniqueIndex V) : Except Exception (List (IndexEntry V)) :=
  if (affectedColumns updates.columnIds index).all (·.isNone) then .ok []
  else
    let entries := updates.rowIdentifiers.zipIdx.map fun e =>
      updateEntry underNull updates t index e.1 e.2
    if !index.allowNulls && entries.any (·.hasNull) then .error nullKey
    -- the duplicates in the update itself
    else if (entries.map (·.tuple)).Nodup then .ok entries
    else .error duplicateKey

/-- `UniqueIndex::Update`. -/
def update (allocator : Allocator) (underNull : ℕ → ℕ → V) (transaction : Transaction C)
    (t : DataTable (Option V)) (updates : UpdateChunk (Option V)) (indexes : List (UniqueIndex V)) :
    List (UniqueIndex V) × Option Exception :=
  addToIndexes allocator transaction updates.rowIdentifiers t (updateEntries underNull updates t)
    indexes

end UniqueIndex

end DuckDB
