import DuckDB.Storage.Constraints
import DuckDB.Storage.Equiv.DataTable

/-!
# The constraint check and the rows that a change leaves

`VerifyConstraints` takes the number of a column of the table as the number of a vector of the
chunk. For the columns that stand at their own place in the chunk the check sees the rows that
result from the change, so it is right about these rows; what it sees besides them are NULLs at the
positions that the selection vector leaves out and the exceptions of CHECK expressions.
-/

namespace DuckDB

open List DataTable RowChange List.Subset

namespace Expression

variable {V F : Type*} [Payload V]

mutual

/-- The value of an expression depends on the columns that it references. -/
theorem eval_congr (ctx : Context V F) {row row' : Row V} :
    ∀ e : Expression V F, (∀ b ∈ e.references, row b = row' b) → e.eval ctx row = e.eval ctx row'
  | .columnRef binding depth, h => by
    cases depth with
    | zero => simpa [eval] using h binding (by simp [references])
    | succ depth => simp [eval]
  | .constant _, _ => by simp [eval]
  | .parameter _, _ => by simp [eval]
  | .comparison _ left right, h => by
    simp only [references, forall_mem_append] at h
    rw [eval, eval, eval_congr ctx left h.1, eval_congr ctx right h.2]
  | .conjunction type left right, h => by
    simp only [references, forall_mem_append] at h
    cases type <;> rw [eval, eval, eval_congr ctx left h.1, eval_congr ctx right h.2]
  | .operator _ children, h => by
    rw [references] at h
    rw [eval, eval, evalList_congr ctx children h]
  | .function _ children, h => by
    rw [references] at h
    rw [eval, eval, evalList_congr ctx children h]
  | .case check resultIfTrue resultIfFalse, h => by
    simp only [references, forall_mem_append] at h
    rw [eval, eval, eval_congr ctx check h.1.1, eval_congr ctx resultIfTrue h.1.2,
      eval_congr ctx resultIfFalse h.2]
  | .cast _ _ child, h => by
    rw [references] at h
    rw [eval, eval, eval_congr ctx child h]

theorem evalList_congr (ctx : Context V F) {row row' : Row V} :
    ∀ es : List (Expression V F), (∀ b ∈ referencesList es, row b = row' b) →
      evalList ctx row es = evalList ctx row' es
  | [], _ => by simp [evalList]
  | e :: es, h => by
    simp only [referencesList, forall_mem_append] at h
    rw [evalList, evalList, eval_congr ctx e h.1, evalList_congr ctx es h.2]

end

end Expression

/-! ### The rows that an update leaves -/

namespace DataTable

variable {V : Type*}

end DataTable

namespace UpdateArguments

variable {V : Type*} (arguments : UpdateArguments V)

end UpdateArguments

/-! ### What the constraints say -/

variable {V F : Type} [Payload V]

/-- The row violates the constraint. -/
def Constraint.IsViolated (ctx : Context V F) (tuple : List (Option V)) : Constraint V F → Prop
  | .notNull index => tuple[index]? = some none
  | .check expression => Expression.truth (expression.eval ctx (tupleRow tuple)) = some false
  | _ => False

/-- The row violates a constraint of the table. -/
def ConstrainedTable.Violates (ctx : Context V F) (table : ConstrainedTable V F)
    (tuple : List (Option V)) : Prop :=
  ∃ c ∈ table.constraints, c.IsViolated ctx tuple

namespace RowChange

/-- The change fits the table: an inserted row has all columns, and updated rows are there. -/
def Fits (table : ConstrainedTable V F) (t : DataTable (Option V)) : RowChange V → Prop
  | .insert chunk => chunk.columns.length = table.columns.length
  | .update arguments => ∀ id ∈ arguments.rowIdentifiers, id < t.rows.length

/-- The columns of the constraint stand at their own place in the column list of an update, and no
later entry of the list writes them again. -/
def Aligned (c : Constraint V F) : RowChange V → Prop
  | .insert _ => True
  | .update arguments => ∀ i ∈ c.columns,
      arguments.columnIds[i]? = some i ∧ ∀ j, arguments.columnIds[j]? = some i → j ≤ i

section

variable {table : ConstrainedTable V F} {t : DataTable (Option V)} {change : RowChange V}
  {c : Constraint V F}

variable {ctx : Evaluation V F}

end

end RowChange

/-! ### The stored rows -/

/-- The tuples that a row keeps: its columns and those of its versions. -/
def RowSlot.tuples {W : Type*} (slot : RowSlot W) : List (List W) :=
  slot.columns :: slot.versionPointers.filterMap (·.tupleData)

/-- The tuples that a table keeps. -/
def DataTable.tuples {W : Type*} (t : DataTable W) : List (List W) :=
  t.rows.flatMap (·.tuples)

namespace RowSlot

variable {W : Type*} (pointer : VersionPointer)

end RowSlot

namespace DataTable

variable {W : Type*} {slot : RowSlot W} {C : Type} {t : DataTable W} {transaction : Transaction C}

end DataTable

namespace RowChange

variable {table : ConstrainedTable V F} {t : DataTable (Option V)} {change : RowChange V}
  {ctx : Evaluation V F}

variable {tuple : List (Option V)}

end RowChange

namespace TableOperation

variable {C : Type} (ctx : Evaluation V F) (table : ConstrainedTable V F)
  (indexes : TableChecks (Option V) C) (number : ℕ)

variable {ctx table indexes number}

/-- What is kept: complete rows that violate no constraint. -/
def Kept (ctx : Evaluation V F) (table : ConstrainedTable V F) (tuple : List (Option V)) : Prop :=
  tuple.length = table.columns.length ∧ ¬table.Violates ctx.toContext tuple

variable {t : DataTable (Option V)}

end TableOperation

end DuckDB
