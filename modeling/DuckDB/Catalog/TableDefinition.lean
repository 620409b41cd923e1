import DuckDB.Catalog.Catalog
import DuckDB.Parser.CheckExpression

/-!
# Table definitions and how they are stored

What CREATE TABLE makes of the parsed definition of a table (`bind_create_table.cpp`, the
constructor of `TableCatalogEntry`), how a table is written to a checkpoint and to the log
(`TableCatalogEntry::Serialize`), and the two ways in which it is created again: `LoadFromStorage`
reads a checkpoint, `ReplayCreateTable` a log record.

`V` is the type of the values of defaults and constants, and `B` that of the bound expressions that
the `CheckBinder` makes of the expressions of CHECK constraints.
-/

namespace DuckDB

open Theory Serializer Deserializer

/-! ### Definitions -/

/-- The constraint types of a key. -/
inductive KeyType where
  | primaryKey
  | unique
deriving DecidableEq, Repr

/-- `class Constraint`. `check` is the `CheckConstraint` of the parser; the two kinds of
`ParsedConstraint` name the columns of a key by an index or by their names. -/
inductive TableConstraint (V B : Type) where
  | notNull (index : ℕ)
  | check (expression : CheckExpression V)
  | boundCheck (expression : B) (unboundConstraint : CheckExpression V)
  | parsedIndex (ctype : KeyType) (index : ℕ)
  | parsedColumns (ctype : KeyType) (columns : List String)

/-- `struct CreateTableInformation`. -/
structure CreateTableInformation (V B : Type) where
  schema : String
  table : String
  columns : List (ColumnDefinition V SQLType)
  constraints : List (TableConstraint V B)

/-- What a `UniqueIndex` is made of. -/
structure UniqueIndexDefinition where
  types : List TypeId
  keys : List ℕ
  allowNulls : Bool
deriving DecidableEq, Repr

/-- `class TableCatalogEntry`, with the unique indexes of its storage. -/
structure TableDefinition (V B : Type) where
  schema : String
  name : String
  columns : List (ColumnDefinition V SQLType)
  constraints : List (TableConstraint V B)
  uniqueIndexes : List UniqueIndexDefinition

/-- What creating and storing tables needs: `CheckBinder::Bind`, for the table name and the names
and types of the columns, the storage format of values, and the value `INTEGER 0`. -/
structure TableContext (V B : Type) where
  bindCheck : String → List (String × SQLType) → CheckExpression V → Except Exception B
  format : ValueFormat V
  integerZero : V

/-! ### Creating a table -/

section Create

variable {V B : Type}

/-- `TableCatalogEntry::Initialize`, with the columns that are done. -/
def addColumns (columns : List (ColumnDefinition V SQLType)) :
    List (ColumnDefinition V SQLType) → Except Exception (List (ColumnDefinition V SQLType))
  | [] => .ok columns
  | entry :: entries =>
    let name := entry.name
    if columns.any fun column => column.name = name then
      .error (.catalogException s!"Column with name {name} already exists!")
    else addColumns (columns ++ [entry]) entries

/-- `GetInternalType(column.type)`. -/
def internalType (column : ColumnDefinition V SQLType) : Except Exception TypeId :=
  match getInternalType column.type with
  | some type => .ok type
  | none =>
    let number := column.type.id.number
    .error (.conversionException s!"Invalid SQLType {number}")

/-- The column of a key that is given by its index. -/
def resolveIndex (columns : List (ColumnDefinition V SQLType)) (index : ℕ) :
    Except Exception (List TypeId × List ℕ) :=
  match columns[index]? with
  | some column => do
    let type ← internalType column
    pure ([type], [index])
  | none => .error .assertion

/-- The loop over the names of a key, with the types and indexes of the columns that are done. -/
def resolveNames (columns : List (ColumnDefinition V SQLType)) (types : List TypeId)
    (keys : List ℕ) : List String → Except Exception (List TypeId × List ℕ)
  | [] => .ok (types, keys)
  | keyname :: names =>
    match columns.findIdx? fun column => column.name = keyname with
    | none => .error (.parserException s!"column \"{keyname}\" named in key does not exist")
    | some key =>
      if key ∈ keys then
        .error (.parserException s!"column \"{keyname}\" appears twice in primary key constraint")
      else
        match columns[key]? with
        | some column => do
          let type ← internalType column
          resolveNames columns (types ++ [type]) (keys ++ [key]) names
        | none => .error .assertion

/-- The unique index of a key. `hasPrimaryKey` says that there was a primary key before. -/
def addKey (name : String) (hasPrimaryKey : Bool) (ctype : KeyType)
    (resolved : Except Exception (List TypeId × List ℕ)) :
    Except Exception UniqueIndexDefinition := do
  let (types, keys) ← resolved
  match ctype with
  | .primaryKey =>
    if hasPrimaryKey then
      .error (.parserException s!"table \"{name}\" has more than one primary key")
    else pure { types, keys, allowNulls := false }
  | .unique => pure { types, keys, allowNulls := true }

/-- The loop over the constraints in the constructor of `TableCatalogEntry`. -/
def resolveConstraints (name : String) (columns : List (ColumnDefinition V SQLType))
    (hasPrimaryKey : Bool) :
    List (TableConstraint V B) → Except Exception (List UniqueIndexDefinition)
  | [] => .ok []
  | constraint :: constraints =>
    match constraint with
    | .parsedIndex ctype index => do
      let key ← addKey name hasPrimaryKey ctype (resolveIndex columns index)
      let indexes ← resolveConstraints name columns (hasPrimaryKey || ctype = .primaryKey)
        constraints
      pure (key :: indexes)
    | .parsedColumns ctype names => do
      let key ← addKey name hasPrimaryKey ctype (resolveNames columns [] [] names)
      let indexes ← resolveConstraints name columns (hasPrimaryKey || ctype = .primaryKey)
        constraints
      pure (key :: indexes)
    | _ => resolveConstraints name columns hasPrimaryKey constraints

/-- The constructor of `TableCatalogEntry`. -/
def createTable (info : CreateTableInformation V B) : Except Exception (TableDefinition V B) := do
  let columns ← addColumns [] info.columns
  -- the types of the `DataTable`
  let _ ← columns.mapM internalType
  let uniqueIndexes ← resolveConstraints info.table columns false info.constraints
  pure
    { schema := info.schema, name := info.table, columns, constraints := info.constraints,
      uniqueIndexes }

end Create

namespace TableContext

variable {V B : Type} (ctx : TableContext V B)

/-- The loop body of `Binder::BindConstraints`. A bound constraint is never bound again. -/
def bindConstraint (table : String) (columns : List (ColumnDefinition V SQLType)) :
    TableConstraint V B → Except Exception (TableConstraint V B)
  | .check expression => do
    let condition ← ctx.bindCheck table (columns.map fun column => (column.name, column.type))
      expression
    pure (.boundCheck condition expression.copy)
  | .boundCheck _ _ => .error .assertion
  | constraint => .ok constraint

/-- `Binder::BindConstraints`. -/
def bindConstraints (info : CreateTableInformation V B) :
    Except Exception (CreateTableInformation V B) := do
  let constraints ← info.constraints.mapM (ctx.bindConstraint info.table info.columns)
  pure { info with constraints }

/-- CREATE TABLE: `Binder::Bind` and `SchemaCatalogEntry::CreateTable`. -/
def create (info : CreateTableInformation V B) : Except Exception (TableDefinition V B) := do
  let bound ← ctx.bindConstraints info
  createTable bound

/-! ### Storing a table -/

/-- The numbers of `enum class ConstraintType`. -/
def keyNumber : KeyType → ℕ
  | .primaryKey => 3
  | .unique => 4

/-- `(size_t) -1`: the index of a key that is given by names. -/
def noIndex : ℕ := 18446744073709551615

/-- `Constraint::Serialize`. -/
def serializeConstraint : TableConstraint V B → List UInt8
  | .notNull index => write 4 1 ++ write 8 index
  | .check expression => write 4 2 ++ expression.serialize ctx.format
  | .boundCheck _ unboundConstraint => write 4 2 ++ unboundConstraint.serialize ctx.format
  | .parsedIndex ctype index =>
    write 4 6 ++ (write 4 (keyNumber ctype) ++ (write 8 index ++ write 4 0))
  | .parsedColumns ctype columns =>
    write 4 6 ++ (write 4 (keyNumber ctype) ++ (write 8 noIndex ++ writeList writeString columns))

/-- What `TableCatalogEntry::Serialize` writes of a column. -/
def serializeColumn (column : ColumnDefinition V SQLType) : List UInt8 :=
  writeString column.name ++ column.type.serialize

/-- `TableCatalogEntry::Serialize`. -/
def serialize (table : TableDefinition V B) : List UInt8 :=
  writeString table.schema ++ (writeString table.name ++
    (writeList serializeColumn table.columns ++
      writeList ctx.serializeConstraint table.constraints))

/-- `ParsedConstraint::Deserialize`. -/
def deserializeParsed : Deserializer (TableConstraint V B) := do
  let type ← read 4
  let index ← read 8
  let columnCount ← read 4
  match type with
  | 3 => rest .primaryKey index columnCount
  | 4 => rest .unique index columnCount
  | _ => throw .assertion
where
  rest (ctype : KeyType) (index columnCount : ℕ) : Deserializer (TableConstraint V B) :=
    if index = noIndex then do
      let columns ← readMany readString columnCount
      pure (.parsedColumns ctype columns)
    else pure (.parsedIndex ctype index)

/-- `Constraint::Deserialize`. A null pointer for a type that is not known is followed by the
constructor of the table. -/
def deserializeConstraint : Deserializer (TableConstraint V B) := do
  let type ← read 4
  match type with
  | 1 => do
    let index ← read 8
    pure (.notNull index)
  | 2 => do
    let expression ← CheckExpression.deserializeCheck ctx.format
    pure (.check expression)
  | 6 => deserializeParsed
  | _ => throw .assertion

/-- What `TableCatalogEntry::Deserialize` makes of a column: the argument `false` of the constructor
of `ColumnDefinition` is a default value. -/
def deserializeColumn : Deserializer (ColumnDefinition V SQLType) := do
  let name ← readString
  let type ← SQLType.deserialize
  pure { name, type, hasDefault := true, defaultValue := ctx.integerZero }

/-- `TableCatalogEntry::Deserialize`. -/
def deserialize : Deserializer (CreateTableInformation V B) := do
  let schema ← readString
  let table ← readString
  let columns ← readList ctx.deserializeColumn
  let constraints ← readList ctx.deserializeConstraint
  pure { schema, table, columns, constraints }

/-- The table that `StorageManager::LoadFromStorage` creates from the file of a table. -/
def loadFromStorage (file : List UInt8) : Except Exception (TableDefinition V B) := do
  let (info, _) ← ctx.deserialize file
  createTable info

/-- The table that `ReplayCreateTable` creates from a log record. -/
def replayCreateTable (record : List UInt8) : Except Exception (TableDefinition V B) := do
  let (info, _) ← ctx.deserialize record
  let bound ← ctx.bindConstraints info
  createTable bound

end TableContext

end DuckDB
