import DuckDB.Common.ChunkCollection
import Mathlib.Data.Int.Notation

/-!
# Parsed expressions

The enumerations of the trees that the parser builds: `parser/expression/`, `parser/query_node/` and
`parser/tableref/`.
-/

namespace DuckDB

/-- `enum class WindowBoundary`. -/
inductive WindowBoundary where
  | invalid
  | unboundedPreceding
  | unboundedFollowing
  | currentRowRange
  | currentRowRows
  | exprPreceding
  | exprFollowing
deriving DecidableEq, Repr

/-- `enum class SubqueryType`. -/
inductive SubqueryType where
  | invalid
  | scalar
  | exists
  | notExists
  | any
deriving DecidableEq, Repr

/-- `enum class SetOperationType`. -/
inductive SetOperationType where
  | none
  | union
  | except
  | intersect
deriving DecidableEq, Repr

/-- `enum class JoinType`, for a join that is written in a query. -/
inductive JoinRefType where
  | left
  | right
  | inner
  | outer
deriving DecidableEq, Repr

/-- `enum class ExpressionType`, for the expressions that the parser builds. -/
inductive ExpressionType where
  | invalid
  | operatorAdd
  | operatorSubtract
  | operatorMultiply
  | operatorDivide
  | operatorConcat
  | operatorMod
  | operatorCast
  | operatorNot
  | operatorIsNull
  | operatorIsNotNull
  | compareEqual
  | compareNotequal
  | compareLessthan
  | compareGreaterthan
  | compareLessthanorequalto
  | compareGreaterthanorequalto
  | compareLike
  | compareNotlike
  | compareIn
  | compareNotIn
  | compareDistinctFrom
  | compareBetween
  | compareNotBetween
  | conjunctionAnd
  | conjunctionOr
  | valueConstant
  | valueParameter
  | valueDefault
  | aggregateCount
  | aggregateCountStar
  | aggregateCountDistinct
  | aggregateSum
  | aggregateSumDistinct
  | aggregateMin
  | aggregateMax
  | aggregateAvg
  | aggregateFirst
  | aggregateStddevSamp
  | windowSum
  | windowCountStar
  | windowMin
  | windowMax
  | windowAvg
  | windowRank
  | windowRankDense
  | windowNtile
  | windowPercentRank
  | windowCumeDist
  | windowRowNumber
  | windowFirstValue
  | windowLastValue
  | windowLead
  | windowLag
  | function
  | operatorCaseExpr
  | operatorNullif
  | operatorCoalesce
  | subquery
  | star
  | columnRef
deriving DecidableEq, Repr

/-- The number of an expression type. -/
def ExpressionType.number : ExpressionType → UInt32
  | invalid => 0
  | operatorAdd => 1
  | operatorSubtract => 2
  | operatorMultiply => 3
  | operatorDivide => 4
  | operatorConcat => 5
  | operatorMod => 6
  | operatorCast => 7
  | operatorNot => 8
  | operatorIsNull => 9
  | operatorIsNotNull => 10
  | compareEqual => 25
  | compareNotequal => 26
  | compareLessthan => 27
  | compareGreaterthan => 28
  | compareLessthanorequalto => 29
  | compareGreaterthanorequalto => 30
  | compareLike => 31
  | compareNotlike => 32
  | compareIn => 33
  | compareNotIn => 34
  | compareDistinctFrom => 35
  | compareBetween => 36
  | compareNotBetween => 37
  | conjunctionAnd => 50
  | conjunctionOr => 51
  | valueConstant => 75
  | valueParameter => 76
  | valueDefault => 82
  | aggregateCount => 100
  | aggregateCountStar => 101
  | aggregateCountDistinct => 102
  | aggregateSum => 103
  | aggregateSumDistinct => 104
  | aggregateMin => 105
  | aggregateMax => 106
  | aggregateAvg => 107
  | aggregateFirst => 108
  | aggregateStddevSamp => 109
  | windowSum => 115
  | windowCountStar => 116
  | windowMin => 117
  | windowMax => 118
  | windowAvg => 119
  | windowRank => 120
  | windowRankDense => 121
  | windowNtile => 122
  | windowPercentRank => 123
  | windowCumeDist => 124
  | windowRowNumber => 125
  | windowFirstValue => 130
  | windowLastValue => 131
  | windowLead => 132
  | windowLag => 133
  | function => 140
  | operatorCaseExpr => 150
  | operatorNullif => 151
  | operatorCoalesce => 152
  | subquery => 175
  | star => 200
  | columnRef => 202

end DuckDB
