import DuckDB.Storage.StorageChunk
import DuckDB.Transaction.Transaction
import Mathlib.Data.List.Sort

/-!
# Data tables

`DataTable` is a list of storage chunks. The operations follow `data_table.cpp`: `append`,
`delete` and `update` change rows on behalf of a transaction and record the changes in its undo
buffer; `scan` and `fetch` read the table as a transaction sees it.

An operation that throws half way keeps what it did before the throw, so each of them returns the
transaction and the table it leaves behind together with the exception, if any.

The checks that run before a row is stored (`VerifyConstraints` and the unique indexes) are a
parameter, `TableChecks`: they read the table and either pass or throw, and they never change a
storage chunk.
-/

namespace DuckDB

variable {V C : Type*}

/-! ### Tables and chunks of rows -/

/-- A table: its storage chunks, in order. The chunk list is never empty and its chunks follow
each other without gap. -/
structure DataTable (V : Type*) where
  columnCount : ℕ
  cardinality : BitVec 64
  chunks : List (StorageChunk V)
  contiguous : Contiguous 0 chunks
  nonempty : chunks ≠ []

/-- A `DataChunk` of complete rows, at most `standardVectorSize` of them. -/
structure DataChunk (V : Type*) where
  rows : List (List V)
  size_le : rows.length ≤ standardVectorSize

/-- A chunk of one row. -/
def DataChunk.single (tuple : List V) : DataChunk V where
  rows := [tuple]
  size_le := Nat.succ_le_succ (Nat.zero_le _)

/-- The arguments of `Update`: `data[j]` is the vector of new values for the column `columnIds[j]`,
with one value for each row identifier. -/
structure UpdateChunk (V : Type*) where
  rowIdentifiers : List ℕ
  columnIds : List ℕ
  data : List (List V)
  data_length : data.length = columnIds.length
  vector_length : ∀ vector ∈ data, vector.length = rowIdentifiers.length

/-- The arguments for one new value. -/
def UpdateChunk.single (row column : ℕ) (value : V) : UpdateChunk V where
  rowIdentifiers := [row]
  columnIds := [column]
  data := [[value]]
  data_length := rfl
  vector_length vector h := by rw [List.mem_singleton.1 h]; rfl

/-- The cells that the second half of `Update` writes, in the order it writes them: column by
column. -/
def UpdateChunk.cells (updates : UpdateChunk V) : List (ℕ × ℕ × V) :=
  (updates.columnIds.zip updates.data).flatMap fun (column, vector) =>
    (updates.rowIdentifiers.zip vector).map fun (row, value) => (row, column, value)

/-- The checks that `Append` and `Update` run before they store anything. -/
structure TableChecks (V C : Type*) where
  verifyAppend : DataTable V → DataChunk V → Option Exception
  uniqueAppend : Transaction C → DataTable V → DataChunk V → Option Exception
  verifyUpdate : DataTable V → UpdateChunk V → Option Exception
  uniqueUpdate : Transaction C → DataTable V → UpdateChunk V → Option Exception

/-- The checks of a table without constraints and indexes. -/
def TableChecks.unconstrained : TableChecks V C where
  verifyAppend _ _ := none
  uniqueAppend _ _ _ := none
  verifyUpdate _ _ := none
  uniqueUpdate _ _ _ := none

theorem Contiguous.map_of_eq {f : StorageChunk V → StorageChunk V}
    (hstart : ∀ c, (f c).start = c.start) (hcount : ∀ c, (f c).count = c.count) :
    ∀ {n : ℕ} {chunks : List (StorageChunk V)}, Contiguous n chunks → Contiguous n (chunks.map f)
  | _, [], _ => trivial
  | n, c :: cs, h => by
    refine ⟨(hstart c).trans h.1, ?_⟩
    rw [hcount]
    exact Contiguous.map_of_eq hstart hcount h.2

/-- Where the last chunk of a contiguous list ends. -/
def endOf (start : ℕ) : List (StorageChunk V) → ℕ
  | [] => start
  | chunk :: rest => endOf (start + chunk.count) rest

variable {cs ds : List (StorageChunk V)} {f : RowSlot V → RowSlot V} {c : StorageChunk V}
  {index n : ℕ}

theorem Contiguous.append (hc : Contiguous n cs) (hd : Contiguous (endOf n cs) ds) :
    Contiguous n (cs ++ ds) := by
  induction cs generalizing n with
  | nil => exact hd
  | cons c cs ih => exact ⟨hc.1, ih hc.2 hd⟩

theorem Contiguous.of_append (h : Contiguous n (cs ++ ds)) :
    Contiguous n cs ∧ Contiguous (endOf n cs) ds := by
  induction cs generalizing n with
  | nil => exact ⟨trivial, h⟩
  | cons c cs ih => exact ⟨⟨h.1, (ih h.2).1⟩, (ih h.2).2⟩

theorem StorageChunk.modifyRow_start : (c.modifyRow index f).start = c.start := rfl

theorem StorageChunk.modifyRow_count : (c.modifyRow index f).count = c.count := by
  simp [StorageChunk.count, StorageChunk.modifyRow]

namespace DataTable

/-- `DataTable::DataTable`: a table with one empty chunk. -/
def empty (columnCount : ℕ) : DataTable V where
  columnCount := columnCount
  cardinality := 0
  chunks := [⟨0, []⟩]
  contiguous := ⟨rfl, trivial⟩
  nonempty := List.cons_ne_nil _ _

/-- All rows of the table, in row number order. -/
def rows (t : DataTable V) : List (RowSlot V) :=
  t.chunks.flatMap (·.rows)

/-- `DataTable::GetChunk`; `none` is the `OutOfRangeException`. -/
def getChunk (t : DataTable V) (row : ℕ) : Option (StorageChunk V) :=
  t.chunks.find? (·.holds row)

/-- The row with a given row number. -/
def row? (t : DataTable V) (row : ℕ) : Option (RowSlot V) :=
  (t.getChunk row).bind fun c => c.rows[row - c.start]?

/-- The exception of `GetChunk`. -/
def outOfBounds : Exception :=
  .outOfRangeException "Row identifiers out of bounds!"

/-- Changes the row with a given row number, in the chunk that holds it. -/
def modifyRow (row : ℕ) (f : RowSlot V → RowSlot V) (t : DataTable V) : DataTable V :=
  { t with
    chunks := t.chunks.map fun c => if c.holds row then c.modifyRow (row - c.start) f else c
    contiguous := t.contiguous.map_of_eq (fun c => by split <;> rfl)
      (fun c => by split <;> simp [StorageChunk.modifyRow_count])
    nonempty := by simpa using t.nonempty }

/-- `info->table->cardinality++` and `info->table->cardinality--` of `UndoBuffer::Commit`. -/
def countCommit (flag : TupleFlag) (t : DataTable V) : DataTable V :=
  match flag with
  | .insertTuple => { t with cardinality := t.cardinality + 1 }
  | .deleteTuple => { t with cardinality := t.cardinality - 1 }
  | .updateTuple => t

/-! ### Append -/

/-- `Transaction::PushDeletedEntries`, with the slots that `CopyToStorage` fills for the rows
numbered from `firstRow` on. -/
def pushDeletedEntries (table : ℕ) :
    ℕ → List (List V) → Transaction C → Transaction C × List (RowSlot V)
  | _, [], transaction => (transaction, [])
  | firstRow, tuple :: tuples, transaction =>
    let pointer := ⟨transaction.transactionId, transaction.nextIndex⟩
    let slot := RowSlot.inserted pointer transaction.transactionId tuple
    let rest := pushDeletedEntries table (firstRow + 1) tuples
      (transaction.createEntry (.tuple .insertTuple table firstRow))
    (rest.1, slot :: rest.2)

/-- The last chunk of the table (`tail_chunk`). -/
def tailChunk (t : DataTable V) : StorageChunk V :=
  t.chunks.getLast t.nonempty

theorem contiguous_tail (t : DataTable V) :
    Contiguous 0 t.chunks.dropLast ∧ t.tailChunk.start = endOf 0 t.chunks.dropLast := by
  have h := t.contiguous
  rw [← List.dropLast_append_getLast t.nonempty] at h
  exact ⟨h.of_append.1, h.of_append.2.1⟩

theorem endOf_append (n : ℕ) (cs : List (StorageChunk V)) (c : StorageChunk V) :
    endOf n (cs ++ [c]) = endOf n cs + c.count := by
  induction cs generalizing n with
  | nil => rfl
  | cons d cs ih => exact ih (n + d.count)

theorem endOf_chunks_eq_tail (t : DataTable V) :
    endOf 0 t.chunks = t.tailChunk.start + t.tailChunk.count := by
  rw [t.contiguous_tail.2, ← endOf_append, tailChunk, List.dropLast_append_getLast]

/-- Adds slots at the end of the last chunk. -/
def extendTail (slots : List (RowSlot V)) (t : DataTable V) : DataTable V :=
  { t with
    chunks := t.chunks.dropLast ++ [{ t.tailChunk with rows := t.tailChunk.rows ++ slots }]
    contiguous := t.contiguous_tail.1.append ⟨t.contiguous_tail.2, trivial⟩
    nonempty := by simp }

/-- Adds a new last chunk that starts where the old one ends. -/
def addChunk (slots : List (RowSlot V)) (t : DataTable V) : DataTable V :=
  { t with
    chunks := t.chunks ++ [⟨t.tailChunk.start + t.tailChunk.count, slots⟩]
    contiguous := t.contiguous.append ⟨t.endOf_chunks_eq_tail.symm, trivial⟩
    nonempty := by simp }

/-- `DataTable::Append`: what fits goes into the last chunk, the remainder into a new one. -/
def append (checks : TableChecks V C) (table : ℕ) (chunk : DataChunk V)
    (transaction : Transaction C) (t : DataTable V) :
    Transaction C × DataTable V × Option Exception :=
  if chunk.rows.isEmpty then (transaction, t, none)
  else if chunk.rows.any (·.length != t.columnCount) then
    (transaction, t, some (.catalogException "Mismatch in column count for append"))
  else
    match checks.verifyAppend t chunk with
    | some e => (transaction, t, some e)
    | none =>
    match checks.uniqueAppend transaction t chunk with
    | some e => (transaction, t, some e)
    | none =>
      let last := t.tailChunk
      let currentCount := min (storageChunkSize - last.count) chunk.rows.length
      let first := pushDeletedEntries table (last.start + last.count)
        (chunk.rows.take currentCount) transaction
      let extended := t.extendTail first.2
      if currentCount = chunk.rows.length then (first.1, extended, none)
      else
        let second := pushDeletedEntries table (last.start + last.count + currentCount)
          (chunk.rows.drop currentCount) first.1
        (second.1, extended.addChunk second.2, none)

/-! ### Delete and update -/

/-- The conflict check of `Delete` and `Update`: the newest version of the row is the uncommitted
change of another transaction. -/
def conflicts (transaction : Transaction C) (row : RowSlot V) : Bool :=
  match row.head? with
  | none => false
  | some version =>
    decide (transactionIdStart ≤ version.versionNumber) &&
      version.versionNumber != transaction.transactionId

/-- The loop over the row identifiers that `Delete` and `Update` share: every id has to lie in
`chunk`, the chunk of the first id; then the conflict check, `PushTuple`, and `after` on the row. -/
def pushRows (flag : TupleFlag) (conflict : String) (after : RowSlot V → RowSlot V)
    (chunk : StorageChunk V) (table : ℕ) :
    List ℕ → Transaction C → DataTable V → Transaction C × DataTable V × Option Exception
  | [], transaction, t => (transaction, t, none)
  | id :: ids, transaction, t =>
    match if chunk.holds id then t.row? id else none with
    | none => (transaction, t, some .assertion)
    | some row =>
      if conflicts transaction row then (transaction, t, some (.transactionException conflict))
      else
        let pointer := ⟨transaction.transactionId, transaction.nextIndex⟩
        pushRows flag conflict after chunk table ids
          (transaction.createEntry (.tuple flag table id))
          (t.modifyRow id fun r => after (r.pushTuple pointer transaction.transactionId))

/-- `DataTable::Delete`. -/
def delete (table : ℕ) (rowIdentifiers : List ℕ) (transaction : Transaction C)
    (t : DataTable V) : Transaction C × DataTable V × Option Exception :=
  match rowIdentifiers with
  | [] => (transaction, t, none)
  | first :: _ =>
    match t.getChunk first with
    | none => (transaction, t, some outOfBounds)
    | some chunk =>
      pushRows .deleteTuple "Conflict on tuple deletion!" RowSlot.setDeleted chunk table
        rowIdentifiers transaction t

/-- The second half of `Update`: the new values are copied over the base columns. -/
def writeCells (cells : List (ℕ × ℕ × V)) (t : DataTable V) : DataTable V :=
  cells.foldl (fun t cell => t.modifyRow cell.1 (RowSlot.setColumn cell.2.1 cell.2.2)) t

/-- `DataTable::Update`. -/
def update (checks : TableChecks V C) (table : ℕ) (updates : UpdateChunk V)
    (transaction : Transaction C) (t : DataTable V) :
    Transaction C × DataTable V × Option Exception :=
  match updates.rowIdentifiers with
  | [] => (transaction, t, none)
  | first :: _ =>
    match checks.verifyUpdate t updates with
    | some e => (transaction, t, some e)
    | none =>
    match t.getChunk first with
    | none => (transaction, t, some outOfBounds)
    | some chunk =>
    match checks.uniqueUpdate transaction t updates with
    | some e => (transaction, t, some e)
    | none =>
      let pushed := pushRows .updateTuple "Conflict on tuple update!" id chunk table
        updates.rowIdentifiers transaction t
      match pushed.2.2 with
      | some e => (pushed.1, pushed.2.1, some e)
      | none => (pushed.1, writeCells updates.cells pushed.2.1, none)

/-! ### Scan and fetch -/

/-- A column id of a scan: `COLUMN_IDENTIFIER_ROW_ID` or a column of the table. -/
inductive ColumnId where
  | rowId
  | column (index : ℕ)
deriving DecidableEq, Repr

/-- One value of a scan result. -/
inductive Cell (V : Type*) where
  | rowId (row : ℕ)
  | value (v : Option V)
deriving DecidableEq, Repr

/-- `RetrieveVersionedData`: one result row for each alternate version and its index. -/
def retrieveVersionedData (columnIds : List ColumnId) (alternates : List (List V × ℕ)) :
    List (List (Cell V)) :=
  alternates.map fun (tuple, index) => columnIds.map fun
    | .rowId => .rowId index
    | .column j => .value tuple[j]?

/-- `RetrieveBaseTableData`: one result row for each regular entry of the chunk. -/
def retrieveBaseTableData (columnIds : List ColumnId) (chunk : StorageChunk V) (offset : ℕ)
    (entries : List ℕ) : List (List (Cell V)) :=
  entries.map fun entry => columnIds.map fun
    | .rowId => .rowId (chunk.start + offset + entry)
    | .column j => .value (chunk.rows[offset + entry]?.bind (·.columns[j]?))

/-- The loop of `Scan` and `Fetch` that follows `version->next` to the version to use. -/
def followVersions (transaction : Transaction C) :
    VersionInformation V → List (VersionInformation V) → VersionInformation V
  | version, [] => version
  | version, next :: rest =>
    if next.versionNumber = transaction.transactionId then version
    else if next.versionNumber < transaction.startTime then version
    else followVersions transaction next rest

/-- What a reader uses for a row: the base table, an older tuple, or nothing. -/
inductive RowChoice (V : Type*) where
  | base
  | alternate (tuple : List V)
  | skip
deriving DecidableEq, Repr

/-- The choice `Scan` and `Fetch` make for a row: base data when there is no version or the head is
seen, else the version found by `followVersions`. -/
def chooseVersion (transaction : Transaction C) (row : RowSlot V) : RowChoice V :=
  match row.versionPointers with
  | [] => if row.deleted then .skip else .base
  | version :: rest =>
    if transaction.sees version.versionNumber then
      if row.deleted then .skip else .base
    else
      match (followVersions transaction version rest).tupleData with
      | none => .skip
      | some tuple => .alternate tuple

/-- The rows `offset ≤ i < offset + standardVectorSize` of a chunk, with their index relative to
`offset`. -/
def vectorRows (chunk : StorageChunk V) (offset : ℕ) : List (RowSlot V × ℕ) :=
  ((chunk.rows.drop offset).take standardVectorSize).zipIdx

/-- One vector of `Scan`: the result rows for up to `standardVectorSize` rows of the chunk from
`offset` on. Alternate versions come first, then rows without version, then versioned rows whose
base data is used. -/
def scanVector (transaction : Transaction C) (columnIds : List ColumnId) (chunk : StorageChunk V)
    (offset : ℕ) : List (List (Cell V)) :=
  let vector := vectorRows chunk offset
  let plain := vector.filter fun e => !(e.1.deleted || !e.1.versionPointers.isEmpty)
  let versioned := vector.filter fun e => !e.1.versionPointers.isEmpty
  if plain.length < vector.length then
    let alternates := versioned.filterMap fun e =>
      match chooseVersion transaction e.1 with
      | .alternate tuple => some (tuple, offset + e.2)
      | _ => none
    let base := versioned.filter fun e => chooseVersion transaction e.1 matches .base
    retrieveVersionedData columnIds alternates ++
      retrieveBaseTableData columnIds chunk offset ((plain ++ base).map (·.2))
  else
    retrieveBaseTableData columnIds chunk offset (plain.map (·.2))

/-- `struct ScanStructure`: the number of the chunk to scan next (`none` at the end of the table)
and the offset in it. -/
structure ScanStructure where
  chunk : Option ℕ
  offset : ℕ
deriving DecidableEq, Repr

/-- `DataTable::InitializeScan`. -/
def initializeScan : ScanStructure where
  chunk := some 0
  offset := 0

/-- The `while` loop of `Scan`: vectors are read until one gives a result or the chunks end. The
fuel bounds the number of vectors of the table. -/
def scanLoop (transaction : Transaction C) (columnIds : List ColumnId) (t : DataTable V) :
    ℕ → ScanStructure → List (List (Cell V)) × ScanStructure
  | 0, structure_ => ([], structure_)
  | fuel + 1, structure_ =>
    match structure_.chunk.bind fun n => t.chunks[n]?.map fun c => (n, c) with
    | none => ([], structure_)
    | some (n, chunk) =>
      let result := scanVector transaction columnIds chunk structure_.offset
      let offset := structure_.offset + standardVectorSize
      let next : ScanStructure :=
        if chunk.count ≤ offset then
          ⟨if n + 1 < t.chunks.length then some (n + 1) else none, 0⟩
        else ⟨some n, offset⟩
      if result.isEmpty then scanLoop transaction columnIds t fuel next else (result, next)

/-- `DataTable::Scan`. -/
def scan (transaction : Transaction C) (columnIds : List ColumnId) (t : DataTable V)
    (structure_ : ScanStructure) : List (List (Cell V)) × ScanStructure :=
  scanLoop transaction columnIds t (t.rows.length + t.chunks.length + 1) structure_

/-- A complete scan: `Scan` is called until it returns nothing. -/
def scanFrom (transaction : Transaction C) (columnIds : List ColumnId) (t : DataTable V) :
    ℕ → ScanStructure → List (List (Cell V))
  | 0, _ => []
  | fuel + 1, structure_ =>
    let result := scan transaction columnIds t structure_
    if result.1.isEmpty then []
    else result.1 ++ scanFrom transaction columnIds t fuel result.2

/-- A scan of the whole table; every call but the last one reads a row. -/
def scanAll (transaction : Transaction C) (columnIds : List ColumnId) (t : DataTable V) :
    List (List (Cell V)) :=
  scanFrom transaction columnIds t (t.rows.length + 1) initializeScan

/-- One row of `DataTable::Fetch`. -/
def fetchRow (transaction : Transaction C) (columnIds : List ColumnId) (chunk : StorageChunk V)
    (rowId : ℕ) : List (List (Cell V)) :=
  match chunk.rows[rowId - chunk.start]? with
  | none => []
  | some row =>
    match chooseVersion transaction row with
    | .base => retrieveBaseTableData columnIds chunk 0 [rowId - chunk.start]
    | .alternate tuple => retrieveVersionedData columnIds [(tuple, rowId)]
    | .skip => []

/-- One turn of the loop of `DataTable::Fetch`. -/
def fetchNext (transaction : Transaction C) (columnIds : List ColumnId) (t : DataTable V)
    (result : List (List (Cell V))) (rowId : ℕ) : Except Exception (List (List (Cell V))) :=
  match t.getChunk rowId with
  | none => .error outOfBounds
  | some chunk => .ok (result ++ fetchRow transaction columnIds chunk rowId)

/-- `DataTable::Fetch`: the row identifiers are sorted, then read one by one. -/
def fetch (transaction : Transaction C) (columnIds : List ColumnId) (t : DataTable V)
    (rowIdentifiers : List ℕ) : Except Exception (List (List (Cell V))) :=
  (rowIdentifiers.mergeSort (· ≤ ·)).foldlM (fetchNext transaction columnIds t) []

end DataTable

end DuckDB
