import DuckDB.Planner.Expression
import DuckDB.Storage.DataTable

/-!
# Row constraints

`DataTable::VerifyConstraints` and the two callers of it, `Append` and `Update`. The check works on
the vectors of a chunk, so the chunks here have their vectors and their selection vector, where the
chunks of `DataTable` have rows.

A column of a CHECK expression is a `BoundReferenceExpression`: the number of a column of the table,
which the executor takes as the number of a vector of the chunk. It is the `columnIndex` of a
column reference here.
-/

namespace DuckDB

/-! ### Chunks with selection vectors -/

/-- The positions that `VectorOperations::Exec` visits. -/
def selectedPositions (selVector : Option (List ℕ)) (count : ℕ) : List ℕ :=
  match selVector with
  | none => List.range count
  | some sel => sel.take count

/-- A `DataChunk`: all its vectors have the same count and selection vector (`DataChunk::Verify`).
A vector is the list of the values at its positions, with NULL where its nullmask is set. -/
structure VectorChunk (V : Type*) where
  columns : List (List (Option V))
  selVector : Option (List ℕ)
  count : ℕ
  positions_length : (selectedPositions selVector count).length = count
  positions_lt : ∀ vector ∈ columns, ∀ p ∈ selectedPositions selVector count, p < vector.length
  count_le : count ≤ standardVectorSize

namespace VectorChunk

variable {V : Type*}

/-- The positions of the rows of the chunk. -/
def positions (chunk : VectorChunk V) : List ℕ :=
  selectedPositions chunk.selVector chunk.count

/-- The values of a vector at the positions of the rows. -/
def flatten (chunk : VectorChunk V) (vector : List (Option V)) : List (Option V) :=
  chunk.positions.map fun p => vector[p]?.join

/-- The row at a position. -/
def tuple (chunk : VectorChunk V) (position : ℕ) : List (Option V) :=
  chunk.columns.map fun vector => vector[position]?.join

/-- The rows that `Append` stores. -/
def toDataChunk (chunk : VectorChunk V) : DataChunk (Option V) where
  rows := chunk.positions.map chunk.tuple
  size_le := by rw [List.length_map, positions, chunk.positions_length]; exact chunk.count_le

end VectorChunk

/-- The columns of a row as the columns of an expression. -/
def tupleRow {V : Type*} (tuple : List (Option V)) : Row V :=
  fun binding => tuple[binding.columnIndex]?.join

/-! ### Constraints -/

namespace Expression

variable {V F : Type*}

mutual

/-- The column references of an expression, in the order of `ExpressionIterator`. -/
def references : Expression V F → List ColumnBinding
  | .columnRef binding _ => [binding]
  | .constant _ => []
  | .parameter _ => []
  | .comparison _ left right => left.references ++ right.references
  | .conjunction _ left right => left.references ++ right.references
  | .operator _ children => referencesList children
  | .function _ children => referencesList children
  | .case check resultIfTrue resultIfFalse =>
    check.references ++ resultIfTrue.references ++ resultIfFalse.references
  | .cast _ _ child => child.references

/-- The column references of a list of expressions. -/
def referencesList : List (Expression V F) → List ColumnBinding
  | [] => []
  | e :: es => e.references ++ referencesList es

end

end Expression

/-- `enum class ConstraintType`, with the data of the constraints that are checked here. -/
inductive Constraint (V F : Type*) where
  | notNull (index : ℕ)
  | check (expression : Expression V F)
  | dummy
  | primaryKey
  | foreignKey
  | unique

namespace Constraint

/-- The columns of the table that the constraint reads. -/
def columns {V F : Type*} : Constraint V F → List ℕ
  | .notNull index => [index]
  | .check expression => expression.references.map (·.columnIndex)
  | _ => []

end Constraint

/-- The part of a `TableCatalogEntry` that the check reads. -/
structure ConstrainedTable (V F : Type*) where
  name : String
  columns : List String
  constraints : List (Constraint V F)
  columns_lt : ∀ c ∈ constraints, ∀ i ∈ c.columns, i < columns.length

/-- What evaluating expressions needs; `raises` is the message of the exception that an evaluation
throws. -/
structure Evaluation (V F : Type) extends Context V F where
  raises : Expression V F → Row V → Option String := fun _ _ => none

namespace ConstrainedTable

variable {V F : Type} [Payload V]

/-- The loop body of `VerifyConstraints`. A vector that the chunk does not have is read out of
bounds; `ExpressionExecutor` asserts that there is one. -/
def verifyConstraint (ctx : Evaluation V F) (table : ConstrainedTable V F)
    (chunk : VectorChunk V) : Constraint V F → Except Exception Unit
  | .notNull index =>
    match chunk.columns[index]? with
    | none => .error .assertion
    | some vector =>
      -- `HasNull` looks at the whole nullmask
      if vector.any (·.isNone) then
        .error (.constraintException ("NOT NULL constraint failed: " ++ table.name ++ "." ++
          (table.columns[index]?).getD ""))
      else .ok ()
  | .check expression =>
    if expression.references.any fun binding => chunk.columns.length ≤ binding.columnIndex then
      .error .assertion
    else
      let rows := chunk.positions.map fun p => tupleRow (chunk.tuple p)
      match rows.findSome? (ctx.raises expression) with
      | some message => .error (.constraintException
          ("CHECK constraint failed: " ++ table.name ++ " (Error: " ++ message ++ ")"))
      | none =>
        if rows.any fun row =>
            Expression.truth (expression.eval ctx.toContext row) = some false then
          .error (.constraintException ("CHECK constraint failed: " ++ table.name))
        else .ok ()
  | .dummy => .ok ()
  | .primaryKey | .foreignKey | .unique => .ok ()

/-- `DataTable::VerifyConstraints`. -/
def verifyConstraints (ctx : Evaluation V F) (table : ConstrainedTable V F)
    (chunk : VectorChunk V) : Except Exception Unit :=
  table.constraints.forM (table.verifyConstraint ctx chunk)

end ConstrainedTable

/-! ### Inserts and updates -/

/-- The arguments of `DataTable::Update`, as `PhysicalUpdate` makes them: the rows come from a scan
of the table, so no row occurs twice. -/
structure UpdateArguments (V : Type*) where
  rowIdentifiers : List ℕ
  columnIds : List ℕ
  updates : VectorChunk V
  count_eq : updates.count = rowIdentifiers.length
  columns_length : updates.columns.length = columnIds.length
  nodup : rowIdentifiers.Nodup

/-- The values to store, without the selection vector. -/
def UpdateArguments.toUpdateChunk {V : Type*} (arguments : UpdateArguments V) :
    UpdateChunk (Option V) where
  rowIdentifiers := arguments.rowIdentifiers
  columnIds := arguments.columnIds
  data := arguments.updates.columns.map arguments.updates.flatten
  data_length := by rw [List.length_map, arguments.columns_length]
  vector_length vector h := by
    obtain ⟨column, -, rfl⟩ := List.mem_map.1 h
    rw [VectorChunk.flatten, List.length_map, VectorChunk.positions,
      arguments.updates.positions_length, arguments.count_eq]

/-- A call of `DataTable::Append` or of `DataTable::Update`. -/
inductive RowChange (V : Type*) where
  | insert (chunk : VectorChunk V)
  | update (arguments : UpdateArguments V)

namespace RowChange

variable {V F : Type}

/-- The chunk that is checked. -/
def chunk : RowChange V → VectorChunk V
  | .insert chunk => chunk
  | .update arguments => arguments.updates

/-- The rows that would result from the change of a table. -/
def results (t : DataTable (Option V)) : RowChange V → List (List (Option V))
  | .insert chunk => chunk.toDataChunk.rows
  | .update arguments => arguments.rowIdentifiers.filterMap fun id =>
      ((DataTable.writeCells arguments.toUpdateChunk.cells t).row? id).map (·.columns)

variable [Payload V]

/-- The constraint check of `Append` and `Update`; both return at once if there is no row. -/
def verify (ctx : Evaluation V F) (table : ConstrainedTable V F) (change : RowChange V) :
    Except Exception Unit :=
  if change.chunk.count = 0 then .ok () else table.verifyConstraints ctx change.chunk

/-- The checks of the table during the change; the ones of its indexes are left open. -/
def checks {C : Type} (ctx : Evaluation V F) (table : ConstrainedTable V F)
    (indexes : TableChecks (Option V) C) (change : RowChange V) : TableChecks (Option V) C :=
  let error : Option Exception :=
    match change.verify ctx table with
    | .ok _ => none
    | .error e => some e
  { indexes with
    verifyAppend _ _ := error
    verifyUpdate _ _ := error }

/-- `DataTable::Append` and `DataTable::Update` of the table with the number `number`. -/
def run {C : Type} (ctx : Evaluation V F) (table : ConstrainedTable V F)
    (indexes : TableChecks (Option V) C) (number : ℕ) (transaction : Transaction C)
    (t : DataTable (Option V)) (change : RowChange V) :
    Transaction C × DataTable (Option V) × Option Exception :=
  let checks := change.checks ctx table indexes
  match change with
  | .insert chunk => t.append checks number chunk.toDataChunk transaction
  | .update arguments => t.update checks number arguments.toUpdateChunk transaction

end RowChange

/-! ### Everything that happens to a table -/

/-- What a transaction does to the rows of a table: changes of rows and, for a version of a row, the
commit, the rollback and the cleanup of it. -/
inductive TableOperation (V C : Type) where
  | change (transaction : Transaction C) (rowChange : RowChange V)
  | delete (transaction : Transaction C) (rowIdentifiers : List ℕ)
  | commit (row : ℕ) (pointer : VersionPointer) (commitId : ℕ)
  | rollback (row : ℕ) (pointer : VersionPointer)
  | cleanup (row : ℕ) (pointer : VersionPointer)

namespace TableOperation

variable {V F C : Type} [Payload V] (ctx : Evaluation V F) (table : ConstrainedTable V F)
  (indexes : TableChecks (Option V) C) (number : ℕ)

/-- The table that an operation leaves behind. -/
def apply (t : DataTable (Option V)) : TableOperation V C → DataTable (Option V)
  | .change transaction rowChange => (rowChange.run ctx table indexes number transaction t).2.1
  | .delete transaction rowIdentifiers => (t.delete number rowIdentifiers transaction).2.1
  | .commit row pointer commitId => t.modifyRow row (RowSlot.setVersionNumber pointer commitId)
  | .rollback row pointer => t.modifyRow row (RowSlot.rollback pointer)
  | .cleanup row pointer => t.modifyRow row (RowSlot.cleanup pointer)

end TableOperation

end DuckDB
