import DuckDB.Common.Constants

/-!
# Catalog entries

The columns of a table, as the catalog and the parser have them. `D` is what the parser makes of a
type.
-/

namespace DuckDB

/-- `class ColumnDefinition`. -/
structure ColumnDefinition (V D : Type*) where
  name : String
  type : D
  hasDefault : Bool
  defaultValue : V
deriving DecidableEq, Repr

end DuckDB
