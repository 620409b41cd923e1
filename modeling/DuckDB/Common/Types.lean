import Mathlib.Data.Nat.Notation

/-!
# Types

The SQL types and the types of vectors (`common/types.hpp`).
-/

namespace DuckDB

/-- `enum class SQLTypeId`. -/
inductive SQLTypeId where
  | invalid
  | sqlNull
  | boolean
  | tinyint
  | smallint
  | integer
  | bigint
  | date
  | timestamp
  | real
  | double
  | float
  | decimal
  | char
  | varchar
  | varbinary
  | pointer
deriving DecidableEq, Repr

/-- `struct SQLType`. -/
structure SQLType where
  id : SQLTypeId
  width : ℕ := 0
  scale : ℕ := 0
deriving DecidableEq, Repr

/-- `enum class TypeId`: the types of vectors. -/
inductive TypeId where
  | invalid
  | boolean
  | tinyint
  | smallint
  | integer
  | bigint
  | pointer
  | float
  | double
  | varchar
  | varbinary
deriving DecidableEq, Repr

/-- `GetInternalType`; the other types throw. -/
def getInternalType (type : SQLType) : Option TypeId :=
  match type.id with
  | .boolean => some .boolean
  | .tinyint => some .tinyint
  | .smallint => some .smallint
  | .sqlNull | .date | .integer => some .integer
  | .bigint | .timestamp => some .bigint
  | .float => some .float
  | .double | .decimal => some .double
  | .varchar | .char => some .varchar
  | .varbinary => some .varbinary
  | .invalid | .real | .pointer => none

end DuckDB
