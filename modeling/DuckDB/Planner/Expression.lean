import DuckDB.Common.Types
import DuckDB.Theory.ThreeValued
import Mathlib.Data.Int.Order.Basic
import Mathlib.Order.Lattice

/-!
# Bound expressions

The expressions of `planner/expression/`, and the value of an expression on one row as the
`ExpressionExecutor` computes it. A value is an `Option`: `none` is NULL. The scalar functions,
the casts and the arithmetic operators are the ones of a `Context`, which also has the values of the
prepared-statement parameters and the rows of the outer queries; an evaluation that throws has the
value NULL here. Aggregates, window functions and subqueries are planned into operators of their
own and do not occur.
-/

namespace DuckDB

open Theory

/-- The values of all types that are not NULL. Two values of one type are compared as
`common/operator/comparison_operators.hpp` does; BOOLEAN is one of the types. -/
class Payload (V : Type*) extends LinearOrder V where
  ofBool : Bool → V
  /-- `CastAs(TypeId::BOOLEAN)`. -/
  toBool : V → Bool
  toBool_ofBool : ∀ b, toBool (ofBool b) = b

attribute [simp] Payload.toBool_ofBool

/-- Integers, with `0` and `1` as the truth values. -/
instance : Payload ℤ where
  ofBool b := if b then 1 else 0
  toBool v := v ≠ 0
  toBool_ofBool b := by cases b <;> rfl

/-- `struct ColumnBinding`. -/
structure ColumnBinding where
  tableIndex : ℕ
  columnIndex : ℕ
deriving DecidableEq, Repr

/-- The expression types of a `BoundComparisonExpression`. -/
inductive ComparisonType where
  | equal
  | notEqual
  | lessThan
  | greaterThan
  | lessThanOrEqualTo
  | greaterThanOrEqualTo
  | like
  | notLike
  | distinctFrom
deriving DecidableEq, Repr

/-- The expression types of a `BoundConjunctionExpression`. -/
inductive ConjunctionType where
  | and
  | or
deriving DecidableEq, Repr

/-- The expression types of a `BoundOperatorExpression`. -/
inductive OperatorType where
  | add
  | subtract
  | multiply
  | divide
  | mod
  | not
  | isNull
  | isNotNull
  | compareIn
  | compareNotIn
deriving DecidableEq, Repr

/-- `class Expression`: the bound expressions over the values `V` and the scalar functions `F`. -/
inductive Expression (V F : Type*) where
  | columnRef (binding : ColumnBinding) (depth : ℕ)
  | constant (value : Option V)
  | parameter (parameterNr : ℕ)
  | comparison (type : ComparisonType) (left right : Expression V F)
  | conjunction (type : ConjunctionType) (left right : Expression V F)
  | operator (type : OperatorType) (children : List (Expression V F))
  | function (boundFunction : F) (children : List (Expression V F))
  | case (check resultIfTrue resultIfFalse : Expression V F)
  | cast (source target : SQLType) (child : Expression V F)

/-- A row: the value of every column. -/
abbrev Row (V : Type*) := ColumnBinding → Option V

/-- What the value of an expression depends on besides the row. -/
structure Context (V F : Type*) where
  parameter : ℕ → Option V := fun _ => none
  /-- The row of the query `depth + 1` levels up. -/
  outer : ℕ → Row V := fun _ _ => none
  function : F → List (Option V) → Option V
  /-- `VectorOperations::Cast` of a value that is not NULL. -/
  cast : SQLType → SQLType → V → Option V
  /-- `VectorOperations::Like`. -/
  like : V → V → Bool
  arithmetic : OperatorType → V → V → Option V

variable {V F : Type*} [Payload V]

/-! ### Comparisons -/

namespace ComparisonType

/-- The comparison of two values that are not NULL. IS DISTINCT FROM is not implemented. -/
def holds (ctx : Context V F) : ComparisonType → V → V → Option Bool
  | .equal, a, b => some (decide (a = b))
  | .notEqual, a, b => some (decide (a ≠ b))
  | .lessThan, a, b => some (decide (a < b))
  | .greaterThan, a, b => some (decide (b < a))
  | .lessThanOrEqualTo, a, b => some (decide (a ≤ b))
  | .greaterThanOrEqualTo, a, b => some (decide (b ≤ a))
  | .like, a, b => some (ctx.like a b)
  | .notLike, a, b => some !ctx.like a b
  | .distinctFrom, _, _ => none

/-- `FlipComparisionExpression`; the other types throw. -/
def flip : ComparisonType → Option ComparisonType
  | .equal => some .equal
  | .notEqual => some .notEqual
  | .lessThan => some .greaterThan
  | .greaterThan => some .lessThan
  | .lessThanOrEqualTo => some .greaterThanOrEqualTo
  | .greaterThanOrEqualTo => some .lessThanOrEqualTo
  | .like | .notLike | .distinctFrom => none

/-- `expr->type >= COMPARE_EQUAL && expr->type <= COMPARE_GREATERTHANOREQUALTO`. -/
def isOrder : ComparisonType → Bool
  | .like | .notLike | .distinctFrom => false
  | _ => true

end ComparisonType

/-! ### Evaluation -/

namespace Expression

/-- The truth value of a BOOLEAN. -/
def truth (value : Option V) : Option Bool :=
  value.map Payload.toBool

/-- A truth value as a BOOLEAN. -/
def ofTruth (value : Option Bool) : Option V :=
  value.map Payload.ofBool

@[simp] theorem truth_ofTruth {value : Option Bool} : truth (ofTruth value : Option V) = value := by
  cases value <;> simp [truth, ofTruth]

/-- The vector comparison: NULL if one side is NULL. -/
def compareValues (ctx : Context V F) (type : ComparisonType) : Option V → Option V → Option Bool
  | some a, some b => type.holds ctx a b
  | _, _ => none

/-- `Execute(BoundOperatorExpression)` on the values of the children. -/
def evalOperator (ctx : Context V F) : OperatorType → List (Option V) → Option V
  | .compareIn, left :: first :: rest =>
    ofTruth (rest.foldl (fun acc v => or3 acc (compareValues ctx .equal left v))
      (compareValues ctx .equal left first))
  | .compareNotIn, left :: first :: rest =>
    ofTruth (not3 (rest.foldl (fun acc v => or3 acc (compareValues ctx .equal left v))
      (compareValues ctx .equal left first)))
  | .not, [v] => ofTruth (not3 (truth v))
  | .isNull, [v] => ofTruth (some v.isNone)
  | .isNotNull, [v] => ofTruth (some v.isSome)
  | .add, [some a, some b] => ctx.arithmetic .add a b
  | .subtract, [some a, some b] => ctx.arithmetic .subtract a b
  | .multiply, [some a, some b] => ctx.arithmetic .multiply a b
  | .divide, [some a, some b] => ctx.arithmetic .divide a b
  | .mod, [some a, some b] => ctx.arithmetic .mod a b
  | _, _ => none

mutual

/-- The value of an expression on a row. -/
def eval (ctx : Context V F) (row : Row V) : Expression V F → Option V
  | .columnRef binding 0 => row binding
  | .columnRef binding (depth + 1) => ctx.outer depth binding
  | .constant value => value
  | .parameter number => ctx.parameter number
  | .comparison type left right =>
    ofTruth (compareValues ctx type (left.eval ctx row) (right.eval ctx row))
  | .conjunction .and left right =>
    ofTruth (and3 (truth (left.eval ctx row)) (truth (right.eval ctx row)))
  | .conjunction .or left right =>
    ofTruth (or3 (truth (left.eval ctx row)) (truth (right.eval ctx row)))
  | .operator type children => evalOperator ctx type (evalList ctx row children)
  | .function f children => ctx.function f (evalList ctx row children)
  | .case check resultIfTrue resultIfFalse =>
    if truth (check.eval ctx row) = some true then resultIfTrue.eval ctx row
    else resultIfFalse.eval ctx row
  | .cast source target child =>
    if getInternalType source = getInternalType target then child.eval ctx row
    else (child.eval ctx row).bind (ctx.cast source target)

/-- The values of a list of expressions. -/
def evalList (ctx : Context V F) (row : Row V) : List (Expression V F) → List (Option V)
  | [] => []
  | e :: es => e.eval ctx row :: evalList ctx row es

end

/-- A row passes a filter if the value of the filter is true. -/
def passes (ctx : Context V F) (row : Row V) (e : Expression V F) : Prop :=
  truth (e.eval ctx row) = some true

instance (ctx : Context V F) (row : Row V) : DecidablePred (passes ctx row) :=
  fun _ => inferInstanceAs (Decidable (_ = _))

/-! ### Properties of expressions -/

omit [Payload V]

mutual

/-- `Equals`. It looks neither at the number of a parameter nor at the types of a cast, and a
conjunction is commutative. -/
def equals [DecidableEq V] [DecidableEq F] : Expression V F → Expression V F → Bool
  | .columnRef binding depth, .columnRef binding' depth' => binding == binding' && depth == depth'
  | .constant value, .constant value' => value == value'
  | .parameter _, .parameter _ => true
  | .comparison type left right, .comparison type' left' right' =>
    type == type' && left.equals left' && right.equals right'
  | .conjunction type left right, .conjunction type' left' right' =>
    type == type' &&
      (left.equals left' && right.equals right' || left.equals right' && right.equals left')
  | .operator type children, .operator type' children' =>
    type == type' && equalsList children children'
  | .function f children, .function f' children' => f == f' && equalsList children children'
  | .case check resultIfTrue resultIfFalse, .case check' resultIfTrue' resultIfFalse' =>
    check.equals check' && resultIfTrue.equals resultIfTrue' && resultIfFalse.equals resultIfFalse'
  | .cast _ _ child, .cast _ _ child' => child.equals child'
  | _, _ => false

/-- `Equals` of the children. -/
def equalsList [DecidableEq V] [DecidableEq F] :
    List (Expression V F) → List (Expression V F) → Bool
  | [], [] => true
  | e :: es, e' :: es' => e.equals e' && equalsList es es'
  | _, _ => false

end

end Expression

end DuckDB
