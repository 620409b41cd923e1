import DuckDB.Common.VectorOperations

/-!
# Loops with truth values

`templated_binary_loop` (`common/vector_operations/binary_loops.hpp`) for comparisons, and the loops
of `comparison_operators.cpp`, `boolean_operators.cpp`, `null_operations.cpp` and `case.cpp`, all in
`common/vector_operations/`.

A BOOLEAN entry is a byte. The loops of the conjunctions read it as a `bool`; the language gives no
meaning to one that is neither 0 nor 1, and compilers compute `&&` and `||` on the bytes themselves.
-/

namespace DuckDB

/-! ### `operators::And` and `operators::Or` -/

/-- A conjunction: what it computes from two values, and whether the result is NULL. -/
inductive Conjunction where
  | and
  | or
deriving DecidableEq, Repr

namespace Conjunction

/-- `And::Operation` and `Or::Operation`. -/
def operation : Conjunction → UInt8 → UInt8 → UInt8
  | and, left, right => left &&& right
  | or, left, right => left ||| right

/-- `AndMask::Operation` and `OrMask::Operation`. -/
def mask : Conjunction → UInt8 → UInt8 → Bool → Bool → Bool
  | and, left, right, leftNull, rightNull =>
    leftNull && (rightNull || right != 0) || rightNull && left != 0
  | or, left, right, leftNull, rightNull =>
    leftNull && (rightNull || right == 0) || rightNull && left == 0

end Conjunction

namespace Vector

variable {α : Type}

/-! ### Comparisons -/

/-- The body of the loops of `templated_binary_loop`; the loops for strings skip the entries that
are NULL if there are any. -/
def comparisonEntry (op : α → α → Option Bool) (skip : Bool) (left right : α) (e : UInt8 × Bool) :
    Option (UInt8 × Bool) :=
  if skip && e.2 then some e else (op left right).map fun res => (res.toUInt8, e.2)

/-- The loops of `templated_binary_loop`, over a result with the given null mask. -/
def comparisonLoop (op : α → α → Option Bool) (ignoreNull : Bool) (shape : Shape)
    (nullmask : ℕ → Bool) (left right : ℕ → α) (result : Vector UInt8) : Option (Vector UInt8) :=
  let skip := ignoreNull && (List.range standardVectorSize).any nullmask
  forRows shape (fun i => comparisonEntry op skip (left i) (right i))
    { result.setShape shape with nullmask := nullmask }

/-- `templated_binary_loop`. An operation without a result reads through a null pointer. -/
def templatedBinaryLoop (op : α → α → Option Bool) (ignoreNull : Bool) (left right : Vector α)
    (result : Vector UInt8) : Option (Vector UInt8) :=
  if left.shape.isConstant then
    if left.nullmask 0 then some { result.setShape right.shape with nullmask := fun _ => true }
    else
      comparisonLoop op ignoreNull right.shape right.nullmask (fun _ => left.data 0) right.data
        result
  else if right.shape.isConstant then
    if right.nullmask 0 then some { result.setShape left.shape with nullmask := fun _ => true }
    else
      comparisonLoop op ignoreNull left.shape left.nullmask left.data (fun _ => right.data 0) result
  else
    comparisonLoop op ignoreNull left.shape (fun i => left.nullmask i || right.nullmask i) left.data
      right.data result

/-- `templated_boolean_operation`, with `COMPARISON_TYPE_CHECK`. -/
def templatedBooleanOperation (op : α → α → Option Bool) (ignoreNull : Bool) (left right : Vector α)
    (result : Vector UInt8) : Option (Vector UInt8) :=
  if !left.shape.isConstant && !right.shape.isConstant && left.count != right.count then none
  else templatedBinaryLoop op ignoreNull left right result

/-! ### Conjunctions -/

/-- The loops of `templated_boolean_nullmask`. -/
def conjunctionLoop (type : Conjunction) (shape : Shape) (left right : ℕ → UInt8 × Bool)
    (result : Vector UInt8) : Option (Vector UInt8) :=
  forRows shape (fun i _ => some (type.operation (left i).1 (right i).1,
      type.mask (left i).1 (right i).1 (left i).2 (right i).2))
    (result.setShape shape)

/-- `templated_boolean_nullmask`. A constant on the right becomes the left operand. -/
def templatedBooleanNullmask (type : Conjunction) (left right result : Vector UInt8) :
    Option (Vector UInt8) :=
  if left.shape.isConstant then
    conjunctionLoop type right.shape (fun _ => left.entry 0) right.entry result
  else if right.shape.isConstant then
    conjunctionLoop type left.shape (fun _ => right.entry 0) left.entry result
  else if left.count = right.count then
    conjunctionLoop type left.shape left.entry right.entry result
  else none

/-! ### Loops with one operand, and `CASE` -/

/-- `VectorOperations::Not`. -/
def not (left result : Vector UInt8) : Option (Vector UInt8) :=
  forRows left.shape (fun i e => some ((left.data i == 0).toUInt8, e.2))
    { result.setShape left.shape with nullmask := left.nullmask }

/-- `is_null_loop`. -/
def isNullLoop (inverse : Bool) (input : Vector α) (result : Vector UInt8) :
    Option (Vector UInt8) :=
  forRows input.shape
    (fun i e => some ((if inverse then !input.nullmask i else input.nullmask i).toUInt8, e.2))
    { result.setShape input.shape with nullmask := fun _ => false }

/-- `case_loop`; `copy` is what the operation stores if the result is not NULL. -/
def caseLoop (copy : α → Option α) (null : α → α) (check : Vector UInt8)
    (resTrue resFalse result : Vector α) : Option (Vector α) :=
  ternaryExec check resTrue resFalse result fun checkIndex trueIndex falseIndex _ =>
    let branch := check.data checkIndex != 0 && !check.nullmask checkIndex
    let (data, isNull) := if branch then resTrue.entry trueIndex else resFalse.entry falseIndex
    if isNull then some (null data, isNull) else (copy data).map (·, isNull)

end Vector

end DuckDB
