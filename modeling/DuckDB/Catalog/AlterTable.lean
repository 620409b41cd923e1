import DuckDB.Catalog.TableDefinition
import DuckDB.Storage.Constraints

/-!
# Renaming columns

`ALTER TABLE … RENAME COLUMN`: `TableCatalogEntry::AlterEntry` makes a new entry from copies of the
columns and of the constraints, and this entry has the same `DataTable`. INSERT and UPDATE check
the constraints of the entry before they change the rows.

`D` is the type of the values of defaults and constants in definitions, and `V` that of the values
in vectors.
-/

namespace DuckDB

open Theory

/-! ### Constraints -/

namespace TableConstraint

variable {D B : Type}

/-- A `ParsedConstraint`: its type is DUMMY. -/
def isParsed : TableConstraint D B → Bool
  | parsedIndex _ _ => true
  | parsedColumns _ _ => true
  | _ => false

end TableConstraint

/-! ### Renaming a column -/

/-- The copy of a column in the new entry. -/
def ColumnDefinition.rename {D T : Type} (name newName : String) (column : ColumnDefinition D T) :
    ColumnDefinition D T :=
  if column.name = name then { column with name := newName } else column

namespace TableContext

variable {D B : Type} (ctx : TableContext D B)

/-- `Constraint::Copy`: "quite dirty, just copy by first serializing and then deserializing". -/
def copyConstraint (constraint : TableConstraint D B) : Except Exception (TableConstraint D B) := do
  let (copy, _) ← ctx.deserializeConstraint (ctx.serializeConstraint constraint)
  pure copy

/-- `TableCatalogEntry::AlterEntry`: `RENAME COLUMN`. The constructor of the new entry asserts that
there is no constraint of type DUMMY; `assertions` says whether the program is compiled with its
assertions. The unique indexes are those of the `DataTable`, which does not change. -/
def alterEntry (assertions : Bool) (name newName : String) (table : TableDefinition D B) :
    Except Exception (TableDefinition D B) :=
  if table.columns.any fun column => column.name = name then do
    let constraints ← table.constraints.mapM ctx.copyConstraint
    let columns ← addColumns [] (table.columns.map (·.rename name newName))
    if assertions && constraints.any (·.isParsed) then .error .assertion
    else pure { table with columns, constraints }
  else .error (.catalogException s!"Table does not have a column with name \"{name}\"")

end TableContext

/-- A `TableCatalogEntry` with its `storage`. -/
structure StoredTable (D V F : Type) where
  definition : TableDefinition D (Expression V F)
  storage : DataTable (Option V)

namespace StoredTable

variable {D V F C : Type}

/-- One RENAME COLUMN. -/
def alter (ctx : TableContext D (Expression V F)) (assertions : Bool) (name newName : String)
    (table : StoredTable D V F) : Except Exception (StoredTable D V F) := do
  let definition ← ctx.alterEntry assertions name newName table.definition
  pure { table with definition }

variable [Payload V]

/-- What the messages of `VerifyConstraints` name. -/
def header (table : StoredTable D V F) : ConstrainedTable V F where
  name := table.definition.name
  columns := table.definition.columns.map (·.name)
  constraints := []
  columns_lt := by simp

/-- The loop body of `DataTable::VerifyConstraints`. Every CHECK constraint is taken as a
`BoundCheckConstraint`: of a `CheckConstraint`, the parsed expression is executed, and the executor
asserts that what is none of the bound classes that it knows is a parameter. -/
def verifyConstraint (ctx : Evaluation V F) (table : StoredTable D V F) (chunk : VectorChunk V) :
    TableConstraint D (Expression V F) → Except Exception Unit
  | .notNull index => table.header.verifyConstraint ctx chunk (.notNull index)
  | .check _ => .error .assertion
  | .boundCheck expression _ => table.header.verifyConstraint ctx chunk (.check expression)
  | .parsedIndex _ _ => table.header.verifyConstraint ctx chunk .dummy
  | .parsedColumns _ _ => table.header.verifyConstraint ctx chunk .dummy

/-- The constraint check of `Append` and `Update`; both return at once if there is no row. -/
def verify (ctx : Evaluation V F) (table : StoredTable D V F) (change : RowChange V) :
    Except Exception Unit :=
  if change.chunk.count = 0 then .ok ()
  else table.definition.constraints.forM (table.verifyConstraint ctx change.chunk)

/-- `DataTable::Append` or `DataTable::Update` when the constraint check ends with `error`; the
checks of the unique indexes are left open. -/
def runWith (indexes : List UniqueIndexDefinition → TableChecks (Option V) C) (number : ℕ)
    (transaction : Transaction C) (table : StoredTable D V F) (error : Option Exception)
    (change : RowChange V) : Transaction C × DataTable (Option V) × Option Exception :=
  let checks : TableChecks (Option V) C :=
    { indexes table.definition.uniqueIndexes with
      verifyAppend _ _ := error
      verifyUpdate _ _ := error }
  match change with
  | .insert chunk => table.storage.append checks number chunk.toDataChunk transaction
  | .update arguments => table.storage.update checks number arguments.toUpdateChunk transaction

/-- An INSERT or UPDATE of rows. -/
def run (ctx : Evaluation V F) (indexes : List UniqueIndexDefinition → TableChecks (Option V) C)
    (number : ℕ) (transaction : Transaction C) (table : StoredTable D V F) (change : RowChange V) :
    Transaction C × DataTable (Option V) × Option Exception :=
  let error : Option Exception :=
    match table.verify ctx change with
    | .ok _ => none
    | .error e => some e
  table.runWith indexes number transaction error change

/-- The rows are accepted. -/
def Accepts (ctx : Evaluation V F)
    (indexes : List UniqueIndexDefinition → TableChecks (Option V) C) (number : ℕ)
    (transaction : Transaction C) (table : StoredTable D V F) (change : RowChange V) : Prop :=
  (table.run ctx indexes number transaction change).2.2 = none

end StoredTable

end DuckDB
