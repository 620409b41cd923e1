import DuckDB.Catalog.Equiv.AlterTable
import DuckDB.Catalog.Equiv.CatalogSnapshot
import DuckDB.Common.Equiv.DataChunk
import DuckDB.Common.Equiv.LikeOperators
import DuckDB.Common.Equiv.NumericBinaryOperators
import DuckDB.Common.Equiv.Timestamp
import DuckDB.Common.Equiv.VectorSort
import DuckDB.Common.Equiv.Week
import DuckDB.Common.SerializerBuffer
import DuckDB.Common.StringHeap
import DuckDB.Execution.Equiv.ExpressionExecutor
import DuckDB.Execution.Equiv.JoinHashTable
import DuckDB.Execution.Equiv.OrderIndex
import DuckDB.Execution.Equiv.PhysicalCopy
import DuckDB.Execution.Equiv.PhysicalCrossProduct
import DuckDB.Execution.Equiv.PhysicalLimit
import DuckDB.Execution.Equiv.PhysicalWindow
import DuckDB.Execution.Equiv.PlanFilter
import DuckDB.Execution.Equiv.WindowFrames
import DuckDB.Execution.Equiv.WindowSegmentTree
import DuckDB.Function.Equiv.ScalarFunction
import DuckDB.Main.Equiv.ClientContext
import DuckDB.Optimizer.Equiv.ExpressionRewriter
import DuckDB.Optimizer.FilterCombiner
import DuckDB.Parser.Equiv.QueryCopy
import DuckDB.Planner.LogicalFilter
import DuckDB.Storage.Equiv.IndexedTable
import DuckDB.Storage.Equiv.NullKeys
import DuckDB.Storage.Equiv.RowIds
import DuckDB.Storage.Equiv.StorageLock
import DuckDB.Storage.Equiv.StorageManager
import DuckDB.Storage.Equiv.TupleData
import DuckDB.Transaction.Equiv.Cardinality
import DuckDB.Transaction.Equiv.LostUpdates
import DuckDB.Transaction.Equiv.Rollback
import DuckDB.Transaction.Equiv.Uniqueness
