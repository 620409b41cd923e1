import DuckDB.Parser.ParsedExpression

/-!
# The expressions of CHECK constraints

The parsed expressions that a CHECK constraint can have, and how they are stored: `Serialize` and
`Deserialize` of `parser/expression/`. The parser refuses subqueries and aggregates in a CHECK
constraint, and the `CheckBinder` refuses window functions.

The values of constants are stored as a `ValueFormat` says.
-/

namespace DuckDB

open Theory Serializer Deserializer

/-! ### Numbers of enumerations -/

/-- The number of an SQL type. -/
def SQLTypeId.number : SQLTypeId → ℕ
  | invalid => 0
  | sqlNull => 1
  | boolean => 2
  | tinyint => 3
  | smallint => 4
  | integer => 5
  | bigint => 6
  | date => 7
  | timestamp => 8
  | real => 9
  | double => 10
  | float => 11
  | decimal => 12
  | char => 13
  | varchar => 14
  | varbinary => 15
  | pointer => 16

/-- The SQL type with this number. -/
def SQLTypeId.ofNumber : ℕ → Option SQLTypeId
  | 0 => some invalid
  | 1 => some sqlNull
  | 2 => some boolean
  | 3 => some tinyint
  | 4 => some smallint
  | 5 => some integer
  | 6 => some bigint
  | 7 => some date
  | 8 => some timestamp
  | 9 => some real
  | 10 => some double
  | 11 => some float
  | 12 => some decimal
  | 13 => some char
  | 14 => some varchar
  | 15 => some varbinary
  | 16 => some pointer
  | _ => none

/-- `SQLType::Serialize`. -/
def SQLType.serialize (type : SQLType) : List UInt8 :=
  write 1 type.id.number ++ (write 2 type.width ++ write 1 type.scale)

/-- `SQLType::Deserialize`. -/
def SQLType.deserialize : Deserializer SQLType := do
  let id ← read 1
  match SQLTypeId.ofNumber id with
  | some id => do
    let width ← read 2
    let scale ← read 1
    pure { id, width, scale }
  | none => throw .assertion

/-- All expression types. -/
def ExpressionType.all : List ExpressionType :=
  [.invalid, .operatorAdd, .operatorSubtract, .operatorMultiply, .operatorDivide,
    .operatorConcat, .operatorMod, .operatorCast, .operatorNot, .operatorIsNull,
    .operatorIsNotNull, .compareEqual, .compareNotequal, .compareLessthan, .compareGreaterthan,
    .compareLessthanorequalto, .compareGreaterthanorequalto, .compareLike, .compareNotlike,
    .compareIn, .compareNotIn, .compareDistinctFrom, .compareBetween, .compareNotBetween,
    .conjunctionAnd, .conjunctionOr, .valueConstant, .valueParameter, .valueDefault,
    .aggregateCount, .aggregateCountStar, .aggregateCountDistinct, .aggregateSum,
    .aggregateSumDistinct, .aggregateMin, .aggregateMax, .aggregateAvg, .aggregateFirst,
    .aggregateStddevSamp, .windowSum, .windowCountStar, .windowMin, .windowMax, .windowAvg,
    .windowRank, .windowRankDense, .windowNtile, .windowPercentRank, .windowCumeDist,
    .windowRowNumber, .windowFirstValue, .windowLastValue, .windowLead, .windowLag, .function,
    .operatorCaseExpr, .operatorNullif, .operatorCoalesce, .subquery, .star, .columnRef]

/-- The expression type with this number. -/
def ExpressionType.ofNumber (n : ℕ) : Option ExpressionType :=
  all.find? fun type => type.number.toNat = n

/-- `Read<ExpressionType>`. -/
def ExpressionType.deserialize : Deserializer ExpressionType := do
  let n ← read 1
  match ExpressionType.ofNumber n with
  | some type => pure type
  | none => throw .assertion

/-! ### Expressions -/

/-- `class ParsedExpression`, for the classes that occur in a CHECK constraint. `name` is the
`alias`. -/
inductive CheckExpression (V : Type) where
  | case (name : String) (check resultIfTrue resultIfFalse : CheckExpression V)
  | cast (name : String) (child : CheckExpression V) (castType : SQLType)
  | columnRef (name tableName columnName : String)
  | comparison (type : ExpressionType) (name : String) (left right : CheckExpression V)
  | conjunction (type : ExpressionType) (name : String) (left right : CheckExpression V)
  | constant (name : String) (value : V) (sqlType : SQLType)
  | default (name : String)
  | function (name functionName schema : String) (children : List (CheckExpression V))
  | operator (type : ExpressionType) (name : String) (children : List (CheckExpression V))
  | parameter (name : String) (parameterNr : ℕ)
  | star (name : String)

/-- `Value::Serialize` and `Value::Deserialize`. -/
structure ValueFormat (V : Type) where
  serialize : V → List UInt8
  deserialize : Deserializer V

namespace CheckExpression

variable {V : Type} (format : ValueFormat V)

/-- The numbers of `enum class ExpressionClass`. -/
def expressionClass : CheckExpression V → ℕ
  | case .. => 2
  | cast .. => 3
  | columnRef .. => 4
  | comparison .. => 5
  | conjunction .. => 6
  | constant .. => 7
  | default _ => 8
  | function .. => 9
  | operator .. => 10
  | star _ => 11
  | parameter .. => 14

/-- `BaseExpression::type`. -/
def type : CheckExpression V → ExpressionType
  | case .. => .operatorCaseExpr
  | cast .. => .operatorCast
  | columnRef .. => .columnRef
  | comparison type .. => type
  | conjunction type .. => type
  | constant .. => .valueConstant
  | default _ => .valueDefault
  | function .. => .function
  | operator type .. => type
  | star _ => .star
  | parameter .. => .valueParameter

mutual

/-- `ParsedExpression::Serialize`: the class, the type and the alias, then what the class adds. -/
def serialize (e : CheckExpression V) : List UInt8 :=
  write 1 e.expressionClass ++ (write 1 e.type.number.toNat ++
    match e with
    | case name check resultIfTrue resultIfFalse =>
      writeString name ++ (serialize check ++ (serialize resultIfTrue ++ serialize resultIfFalse))
    | cast name child castType => writeString name ++ (serialize child ++ castType.serialize)
    | columnRef name tableName columnName =>
      writeString name ++ (writeString tableName ++ writeString columnName)
    | comparison _ name left right => writeString name ++ (serialize left ++ serialize right)
    | conjunction _ name left right => writeString name ++ (serialize left ++ serialize right)
    | constant name value sqlType =>
      writeString name ++ (format.serialize value ++ sqlType.serialize)
    | default name => writeString name
    | function name functionName schema children =>
      writeString name ++ (writeString functionName ++ (writeString schema ++
        (write 4 children.length ++ serializeAll children)))
    | operator _ name children =>
      writeString name ++ (write 4 children.length ++ serializeAll children)
    | parameter name parameterNr => writeString name ++ write 8 parameterNr
    | star name => writeString name)

/-- The members of `WriteList`. -/
def serializeAll : List (CheckExpression V) → List UInt8
  | [] => []
  | e :: es => serialize e ++ serializeAll es

end

/-- `ParsedExpression::Deserialize`, for expressions that are nested at most `depth` deep. -/
def deserialize : ℕ → Deserializer (CheckExpression V)
  | 0 => throw .assertion
  | depth + 1 => do
    let expressionClass ← read 1
    let type ← ExpressionType.deserialize
    match expressionClass with
    | 2 => do
      let name ← readString
      let check ← deserialize depth
      let resultIfTrue ← deserialize depth
      let resultIfFalse ← deserialize depth
      pure (case name check resultIfTrue resultIfFalse)
    | 3 => do
      let name ← readString
      let child ← deserialize depth
      let castType ← SQLType.deserialize
      pure (cast name child castType)
    | 4 => do
      let name ← readString
      let tableName ← readString
      let columnName ← readString
      pure (columnRef name tableName columnName)
    | 5 => do
      let name ← readString
      let left ← deserialize depth
      let right ← deserialize depth
      pure (comparison type name left right)
    | 6 => do
      let name ← readString
      let left ← deserialize depth
      let right ← deserialize depth
      pure (conjunction type name left right)
    | 7 => do
      let name ← readString
      let value ← format.deserialize
      let sqlType ← SQLType.deserialize
      pure (constant name value sqlType)
    | 8 => do
      let name ← readString
      pure (default name)
    | 9 => do
      let name ← readString
      let functionName ← readString
      let schema ← readString
      let children ← readList (deserialize depth)
      -- the constructor makes the name lower case
      pure (function name functionName.toLower schema children)
    | 10 => do
      let name ← readString
      let children ← readList (deserialize depth)
      pure (operator type name children)
    | 11 => do
      let name ← readString
      pure (star name)
    | 14 => do
      let name ← readString
      let parameterNr ← read 8
      pure (parameter name parameterNr)
    | _ => throw (.serializationException "Unsupported type for expression deserialization!")

/-- `ParsedExpression::Deserialize`: an expression is not deeper than there are bytes. -/
def deserializeCheck : Deserializer (CheckExpression V) :=
  fun source => deserialize format source.length source

mutual

/-- `ParsedExpression::Copy`. The copy of a parameter has the number zero. -/
def copy : CheckExpression V → CheckExpression V
  | case name check resultIfTrue resultIfFalse =>
    case name (copy check) (copy resultIfTrue) (copy resultIfFalse)
  | cast name child castType => cast name (copy child) castType
  | columnRef name tableName columnName => columnRef name tableName columnName
  | comparison type name left right => comparison type name (copy left) (copy right)
  | conjunction type name left right => conjunction type name (copy left) (copy right)
  | constant name value sqlType => constant name value sqlType
  | default name => default name
  | function name functionName schema children =>
    function name functionName.toLower schema (copyAll children)
  | operator type name children => operator type name (copyAll children)
  | parameter name _ => parameter name 0
  | star name => star name

/-- The copies of the children. -/
def copyAll : List (CheckExpression V) → List (CheckExpression V)
  | [] => []
  | e :: es => copy e :: copyAll es

end

end CheckExpression

end DuckDB
