import DuckDB.Common.CastOperators
import DuckDB.Common.VectorOperations

/-!
# Division of vectors

`VectorOperations::Divide` and `VectorOperations::Modulo` for vectors of integers
(`common/vector_operations/numeric_binary_operators.cpp`).
-/

namespace DuckDB

open IntegerType

/-- The machine divides the smallest value by minus one. Numbers of less than 32 bits are divided
as numbers of type `int`, and `uint64_t` has no negative ones. -/
def overflows (type : IntegerType) (left right : BitVec type.width) : Bool :=
  (type = integer || type = bigint) && type.toInt left = type.minimumValue - 1 &&
    type.toInt right = -1

/-- A division by the machine, which traps a division by zero and one that overflows. -/
def machineDivision (type : IntegerType) (op : ℤ → ℤ → ℤ) (left right : BitVec type.width) :
    Option (BitVec type.width) :=
  if right = 0 || overflows type left right then none
  else some (type.convert (op (type.toInt left) (type.toInt right)))

namespace Vector

/-- The body of the loops that test the divisor. -/
def divmodEntry (type : IntegerType) (op : ℤ → ℤ → ℤ) (left right : BitVec type.width)
    (e : BitVec type.width × Bool) : Option (BitVec type.width × Bool) :=
  if right = 0 then some (e.1, true) else (machineDivision type op left right).map (·, e.2)

/-- `templated_divmod_loop`. -/
def templatedDivmodLoop (type : IntegerType) (op : ℤ → ℤ → ℤ)
    (left right result : Vector (BitVec type.width)) : Option (Vector (BitVec type.width)) :=
  if left.shape.isConstant then
    let result := result.setShape right.shape
    if left.nullmask 0 then some { result with nullmask := fun _ => true }
    else
      forRows right.shape (fun i => divmodEntry type op (left.data 0) (right.data i))
        { result with nullmask := right.nullmask }
  else if right.shape.isConstant then
    let result := result.setShape left.shape
    if right.nullmask 0 || right.data 0 = 0 then some { result with nullmask := fun _ => true }
    else
      forRows left.shape
        (fun i e => (machineDivision type op (left.data i) (right.data 0)).map (·, e.2))
        { result with nullmask := left.nullmask }
  else
    forRows left.shape (fun i => divmodEntry type op (left.data i) (right.data i))
      { result.setShape left.shape with nullmask := fun i => left.nullmask i || right.nullmask i }

/-- `VectorOperations::Divide`, behind the checks of the types. -/
def divide (type : IntegerType) : (left right result : Vector (BitVec type.width)) →
    Option (Vector (BitVec type.width)) :=
  templatedDivmodLoop type Int.tdiv

/-- `VectorOperations::Modulo`. -/
def modulo (type : IntegerType) : (left right result : Vector (BitVec type.width)) →
    Option (Vector (BitVec type.width)) :=
  templatedDivmodLoop type Int.tmod

end Vector

end DuckDB
