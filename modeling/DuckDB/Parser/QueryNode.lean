import DuckDB.Parser.CheckExpression

/-!
# Query trees

The trees that the parser builds, with all their fields, and how they are copied: `Copy` of
`parser/expression/`, `parser/tableref/` and `parser/query_node/`. Expressions, table references
and query nodes contain each other.

A text is the list of its bytes; `name` is the `alias` of an expression or a table reference. What
a constructor of the source checks or changes is in `makeAggregate`, `checkWindow`, `FunctionName`
and `HiddenColumns`.
-/

namespace DuckDB

/-- `ExpressionTypeToString`. -/
def ExpressionType.toText : ExpressionType → Except Exception String
  | invalid => throw (.conversionException "Invalid ExpressionType 0")
  | operatorAdd => return "ADD"
  | operatorSubtract => return "SUBTRACT"
  | operatorMultiply => return "MULTIPLY"
  | operatorDivide => return "DIVIDE"
  | operatorConcat => return "CONCAT"
  | operatorMod => return "MOD"
  | operatorCast => return "CAST"
  | operatorNot => return "NOT"
  | operatorIsNull => return "IS_NULL"
  | operatorIsNotNull => return "IS_NOT_NULL"
  | compareEqual => return "EQUAL"
  | compareNotequal => return "NOTEQUAL"
  | compareLessthan => return "LESSTHAN"
  | compareGreaterthan => return "GREATERTHAN"
  | compareLessthanorequalto => return "LESSTHANOREQUALTO"
  | compareGreaterthanorequalto => return "GREATERTHANOREQUALTO"
  | compareLike => return "LIKE"
  | compareNotlike => return "NOTLIKE"
  | compareIn => return "IN"
  | compareNotIn => return "COMPARE_NOT_IN"
  | compareDistinctFrom => return "DISTINCT_FROM"
  | compareBetween => return "COMPARE_BETWEEN"
  | compareNotBetween => return "COMPARE_NOT_BETWEEN"
  | conjunctionAnd => return "AND"
  | conjunctionOr => return "OR"
  | valueConstant => return "CONSTANT"
  | valueParameter => return "PARAMETER"
  | valueDefault => return "VALUE_DEFAULT"
  | aggregateCount => return "COUNT"
  | aggregateCountStar => return "COUNT_STAR"
  | aggregateCountDistinct => return "COUNT_DISTINCT"
  | aggregateSum => return "SUM"
  | aggregateSumDistinct => return "SUM_DISTINCT"
  | aggregateMin => return "MIN"
  | aggregateMax => return "MAX"
  | aggregateAvg => return "AVG"
  | aggregateFirst => return "FIRST"
  | aggregateStddevSamp => return "AGGREGATE_STDDEV_SAMP"
  | windowSum => return "SUM"
  | windowCountStar => return "COUNT_STAR"
  | windowMin => return "MIN"
  | windowMax => return "MAX"
  | windowAvg => return "AVG"
  | windowRank => return "RANK"
  | windowRankDense => return "RANK_DENSE"
  | windowNtile => return "NTILE"
  | windowPercentRank => return "PERCENT_RANK"
  | windowCumeDist => return "CUME_DIST"
  | windowRowNumber => return "ROW_NUMBER"
  | windowFirstValue => return "FIRST_VALUE"
  | windowLastValue => return "LAST_VALUE"
  | windowLead => return "LEAD"
  | windowLag => return "LAG"
  | function => return "FUNCTION"
  | operatorCaseExpr => return "CASE"
  | operatorNullif => return "NULLIF"
  | operatorCoalesce => return "COALESCE"
  | subquery => return "SUBQUERY"
  | star => return "STAR"
  | columnRef => return "COLUMN_REF"

/-! ### Names and sets of names -/

/-- `std::tolower` of a byte. -/
def StringUtil.lowerByte (c : UInt8) : UInt8 :=
  if 65 ≤ c ∧ c ≤ 90 then c + 32 else c

/-- `StringUtil::Lower`. -/
def StringUtil.lower (str : List UInt8) : List UInt8 :=
  str.map lowerByte

theorem StringUtil.lowerByte_lowerByte {c : UInt8} : lowerByte (lowerByte c) = lowerByte c := by
  by_cases h : 65 ≤ c ∧ c ≤ 90
  · have hlower : ¬(65 ≤ c + 32 ∧ c + 32 ≤ 90) := by
      simp only [UInt8.le_iff_toNat_le, UInt8.toNat_add, UInt8.reduceToNat] at h ⊢
      omega
    rw [lowerByte, lowerByte, if_pos h, if_neg hlower]
  · rw [lowerByte, lowerByte, if_neg h, if_neg h]

theorem StringUtil.lower_lower (str : List UInt8) : lower (lower str) = lower str := by
  simp [lower, lowerByte_lowerByte]

/-- The `function_name` of a `FunctionExpression`, which the constructor turns into lower case. -/
structure FunctionName where
  text : List UInt8
  lower_text : StringUtil.lower text = text
deriving DecidableEq

/-- The name that the constructor sets. -/
def FunctionName.of (str : List UInt8) : FunctionName where
  text := StringUtil.lower str
  lower_text := StringUtil.lower_lower str

theorem FunctionName.of_text {name : FunctionName} : of name.text = name := by
  cases name with
  | mk text lower_text => simp only [of, lower_text]

/-- The `hidden_columns` of a join, a set of names in the order in which it is gone through. -/
structure HiddenColumns where
  names : List (List UInt8)
  nodup : names.Nodup
deriving DecidableEq

/-! ### Trees -/

mutual

/-- `class ParsedExpression`. -/
inductive ParsedExpression (V : Type) where
  | aggregate (type : ExpressionType) (name : List UInt8) (child : Option (ParsedExpression V))
  | case (name : List UInt8) (check resultIfTrue resultIfFalse : ParsedExpression V)
  | cast (name : List UInt8) (child : ParsedExpression V) (castType : SQLType)
  | columnRef (name tableName columnName : List UInt8)
  | comparison (type : ExpressionType) (name : List UInt8) (left right : ParsedExpression V)
  | conjunction (type : ExpressionType) (name : List UInt8) (left right : ParsedExpression V)
  | constant (name : List UInt8) (value : V) (sqlType : SQLType)
  | default (name : List UInt8)
  | function (name : List UInt8) (functionName : FunctionName) (schema : List UInt8)
    (children : List (ParsedExpression V))
  | operator (type : ExpressionType) (name : List UInt8) (children : List (ParsedExpression V))
  | parameter (name : List UInt8) (parameterNr : BitVec 64)
  | star (name : List UInt8)
  | subquery (name : List UInt8) (subqueryType : SubqueryType) (subquery : QueryNode V)
    (child : Option (ParsedExpression V)) (comparisonType : ExpressionType)
  | window (type : ExpressionType) (name : List UInt8) (child : Option (ParsedExpression V))
    (partitions : List (ParsedExpression V)) (orders : List (OrderType × ParsedExpression V))
    (first last : WindowBoundary)
    (startExpr endExpr offsetExpr defaultExpr : Option (ParsedExpression V))

/-- `class TableRef`. -/
inductive TableRef (V : Type) where
  | baseTable (name schemaName tableName : List UInt8)
  | crossProduct (name : List UInt8) (left right : TableRef V)
  | join (name : List UInt8) (left right : TableRef V) (condition : ParsedExpression V)
    (type : JoinRefType) (hiddenColumns : HiddenColumns)
  | subquery (name : List UInt8) (subquery : QueryNode V) (columnNameAlias : List (List UInt8))
  | tableFunction (name : List UInt8) (function : ParsedExpression V)

/-- `class QueryNode`. -/
inductive QueryNode (V : Type) where
  | select (selectDistinct : Bool) (limit offset : Option (ParsedExpression V))
    (orders : List (OrderType × ParsedExpression V)) (selectList : List (ParsedExpression V))
    (fromTable : Option (TableRef V)) (whereClause : Option (ParsedExpression V))
    (groups : List (ParsedExpression V)) (having : Option (ParsedExpression V))
  | setOperation (selectDistinct : Bool) (limit offset : Option (ParsedExpression V))
    (orders : List (OrderType × ParsedExpression V)) (setopType : SetOperationType)
    (left right : QueryNode V)

end

variable {V : Type}

namespace ParsedExpression

/-- `BaseExpression::type`. -/
def type : ParsedExpression V → ExpressionType
  | aggregate type .. => type
  | case .. => .operatorCaseExpr
  | cast .. => .operatorCast
  | columnRef .. => .columnRef
  | comparison type .. => type
  | conjunction type .. => type
  | constant .. => .valueConstant
  | default _ => .valueDefault
  | function .. => .function
  | operator type .. => type
  | star _ => .star
  | subquery .. => .subquery
  | window type .. => type
  | parameter .. => .valueParameter

/-- The constructor of `AggregateExpression`: the type and the child that it sets. -/
def makeAggregate (type : ExpressionType) (child : Option (ParsedExpression V)) :
    Except Exception (ExpressionType × Option (ParsedExpression V)) :=
  match type with
  | .aggregateCount =>
    -- COUNT(*) becomes AGGREGATE_COUNT_STAR
    match child with
    | none => return (.aggregateCountStar, none)
    | some e =>
      if e.type = .star then return (.aggregateCountStar, none)
      else return (.aggregateCount, some e)
  | .aggregateCountStar | .aggregateCountDistinct | .aggregateSum | .aggregateSumDistinct
  | .aggregateMin | .aggregateMax | .aggregateFirst | .aggregateStddevSamp => return (type, child)
  | _ => throw (.notImplementedException "Aggregate type not supported")

end ParsedExpression

/-- The types that the constructor of `WindowExpression` accepts. -/
def windowTypes : List ExpressionType :=
  [.windowSum, .windowCountStar, .windowMin, .windowMax, .windowAvg, .windowRowNumber,
    .windowFirstValue, .windowLastValue, .windowRank, .windowRankDense, .windowPercentRank,
    .windowCumeDist, .windowLead, .windowLag, .windowNtile]

/-- The check in the constructor of `WindowExpression`. -/
def checkWindow (type : ExpressionType) : Except Exception Unit := do
  if type ∈ windowTypes then return
  else
    let text ← type.toText
    throw (.notImplementedException s!"Window aggregate type {text} not supported")

theorem exists_checkWindow_iff {type : ExpressionType} :
    (∃ x, checkWindow type = .ok x) ↔ type ∈ windowTypes := by
  unfold checkWindow
  split_ifs with h
  · exact iff_of_true ⟨(), rfl⟩ h
  · refine iff_of_false ?_ h
    rintro ⟨x, hx⟩
    obtain ⟨text, -, hthrow⟩ := bind_eq_ok.mp hx
    cases hthrow

/-! ### Copying -/

mutual

/-- `ParsedExpression::Copy`. The copy of a parameter has the number that a new one has. -/
def ParsedExpression.copy : ParsedExpression V → Except Exception (ParsedExpression V)
  | .aggregate type name child => do
    let child ← copyOptional child
    let made ← ParsedExpression.makeAggregate type child
    return .aggregate type name made.2
  | .case name check resultIfTrue resultIfFalse => do
    let check ← check.copy
    let resultIfTrue ← resultIfTrue.copy
    let resultIfFalse ← resultIfFalse.copy
    return .case name check resultIfTrue resultIfFalse
  | .cast name child castType => do
    let child ← child.copy
    return .cast name child castType
  | .columnRef name tableName columnName => return .columnRef name tableName columnName
  | .comparison type name left right => do
    let left ← left.copy
    let right ← right.copy
    return .comparison type name left right
  | .conjunction type name left right => do
    let left ← left.copy
    let right ← right.copy
    return .conjunction type name left right
  | .constant name value sqlType => return .constant name value sqlType
  | .default name => return .default name
  | .function name functionName schema children => do
    let children ← copyAll children
    return .function name (.of functionName.text) schema children
  | .operator type name children => do
    let children ← copyAll children
    return .operator type name children
  | .parameter name _ => return .parameter name 0
  | .star name => return .star name
  | .subquery name subqueryType subquery child comparisonType => do
    let subquery ← subquery.copy
    let child ← copyOptional child
    return .subquery name subqueryType subquery child comparisonType
  | .window type name child partitions orders first last startExpr endExpr offsetExpr
      defaultExpr => do
    let child ← copyOptional child
    checkWindow type
    let partitions ← copyAll partitions
    let orders ← copyOrders orders
    let startExpr ← copyOptional startExpr
    let endExpr ← copyOptional endExpr
    let offsetExpr ← copyOptional offsetExpr
    let defaultExpr ← copyOptional defaultExpr
    return .window type name child partitions orders first last startExpr endExpr offsetExpr
      defaultExpr
termination_by structural e => e

/-- The copy of an optional part. -/
def copyOptional : Option (ParsedExpression V) → Except Exception (Option (ParsedExpression V))
  | none => return none
  | some e => do
    let e ← e.copy
    return some e
termination_by structural e => e

/-- The copies of a list. -/
def copyAll : List (ParsedExpression V) → Except Exception (List (ParsedExpression V))
  | [] => return []
  | e :: es => do
    let e ← e.copy
    let es ← copyAll es
    return e :: es
termination_by structural es => es

/-- The copies of a list of `OrderByNode`. -/
def copyOrders : List (OrderType × ParsedExpression V) →
    Except Exception (List (OrderType × ParsedExpression V))
  | [] => return []
  | (type, e) :: orders => do
    let e ← e.copy
    let orders ← copyOrders orders
    return (type, e) :: orders
termination_by structural orders => orders

/-- `TableRef::Copy`. -/
def TableRef.copy : TableRef V → Except Exception (TableRef V)
  | .baseTable name schemaName tableName => return .baseTable name schemaName tableName
  | .crossProduct name left right => do
    let left ← left.copy
    let right ← right.copy
    return .crossProduct name left right
  | .join name left right condition type hiddenColumns => do
    let left ← left.copy
    let right ← right.copy
    let condition ← condition.copy
    return .join name left right condition type hiddenColumns
  | .subquery name subquery columnNameAlias => do
    let subquery ← subquery.copy
    return .subquery name subquery columnNameAlias
  | .tableFunction name function => do
    let function ← function.copy
    return .tableFunction name function
termination_by structural ref => ref

/-- The copy of the FROM clause. -/
def copyFrom : Option (TableRef V) → Except Exception (Option (TableRef V))
  | none => return none
  | some ref => do
    let ref ← ref.copy
    return some ref
termination_by structural ref => ref

/-- `QueryNode::Copy`, which ends with `CopyProperties`. -/
def QueryNode.copy : QueryNode V → Except Exception (QueryNode V)
  | .select selectDistinct limit offset orders selectList fromTable whereClause groups having => do
    let selectList ← copyAll selectList
    let fromTable ← copyFrom fromTable
    let whereClause ← copyOptional whereClause
    let groups ← copyAll groups
    let having ← copyOptional having
    let orders ← copyOrders orders
    let limit ← copyOptional limit
    let offset ← copyOptional offset
    return .select selectDistinct limit offset orders selectList fromTable whereClause groups having
  | .setOperation selectDistinct limit offset orders setopType left right => do
    let left ← left.copy
    let right ← right.copy
    let orders ← copyOrders orders
    let limit ← copyOptional limit
    let offset ← copyOptional offset
    return .setOperation selectDistinct limit offset orders setopType left right
termination_by structural node => node

end

end DuckDB
