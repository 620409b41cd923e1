import DuckDB.Common.Constants
import Mathlib.Data.Int.Notation

/-!
# Casts between integers

The limits of the integer types (`common/limits.hpp`) and the casts between them
(`common/operator/cast_operators.cpp`).
-/

namespace DuckDB

/-- The types `int8_t`, `int16_t`, `int32_t`, `int64_t` and `uint64_t`, by the names that
`TypeIdToString` gives them. -/
inductive IntegerType where
  | tinyint
  | smallint
  | integer
  | bigint
  | pointer
deriving DecidableEq, Repr

namespace IntegerType

def width : IntegerType → ℕ
  | tinyint => 8
  | smallint => 16
  | integer => 32
  | bigint => 64
  | pointer => 64

/-- The number with these bits. -/
def toInt : (type : IntegerType) → BitVec type.width → ℤ
  | pointer, value => value.toNat
  | tinyint, value => value.toInt
  | smallint, value => value.toInt
  | integer, value => value.toInt
  | bigint, value => value.toInt

/-- A conversion to the type: the lowest bits of the number. -/
def convert (type : IntegerType) (value : ℤ) : BitVec type.width :=
  BitVec.ofInt type.width value

/-- `TypeIdToString`. -/
def name : IntegerType → String
  | tinyint => "TINYINT"
  | smallint => "SMALLINT"
  | integer => "INTEGER"
  | bigint => "BIGINT"
  | pointer => "POINTER"

/-- `MinimumValue`. -/
def minimumValue : IntegerType → ℤ
  | tinyint => -127
  | smallint => -32767
  | integer => -2147483647
  | bigint => -9223372036854775807
  | pointer => 0

/-- `MaximumValue`. -/
def maximumValue : IntegerType → ℤ
  | tinyint => 127
  | smallint => 32767
  | integer => 2147483647
  | bigint => 9223372036854775807
  | pointer => 9223372036854775807

end IntegerType

namespace Cast

open IntegerType

/-- `ValueOutOfRangeException`, with the value as an `int64_t`. -/
def valueOutOfRangeException (value : ℤ) (origType newType : IntegerType) : Exception :=
  .conversionException ("Type " ++ origType.name ++ " with value " ++
    toString (bigint.toInt (bigint.convert value)) ++
    " can't be cast because the value is out of range for the destination type " ++ newType.name)

/-- `cast_with_overflow_check`. -/
def castWithOverflowCheck (src dst : IntegerType) (value : BitVec src.width) :
    Except Exception (BitVec dst.width) :=
  if src.toInt value < dst.minimumValue || src.toInt value > dst.maximumValue then
    throw (valueOutOfRangeException (src.toInt value) src dst)
  else return dst.convert (src.toInt value)

/-- `cast_to_uint64_overflow_check`. -/
def castToUint64OverflowCheck (src : IntegerType) (value : BitVec src.width) :
    Except Exception (BitVec pointer.width) :=
  if src.toInt value < 0 then throw (valueOutOfRangeException (src.toInt value) src pointer)
  else return pointer.convert (src.toInt value)

/-- `cast_from_uint64_overflow_check`. -/
def castFromUint64OverflowCheck (dst : IntegerType) (value : BitVec pointer.width) :
    Except Exception (BitVec dst.width) :=
  if pointer.toInt value > pointer.toInt (pointer.convert dst.maximumValue) then
    throw (valueOutOfRangeException (pointer.toInt value) pointer dst)
  else return dst.convert (pointer.toInt value)

/-- `Cast::Operation`. -/
def operation : (src dst : IntegerType) → BitVec src.width → Except Exception (BitVec dst.width)
  | smallint, tinyint, left => castWithOverflowCheck smallint tinyint left
  | integer, tinyint, left => castWithOverflowCheck integer tinyint left
  | bigint, tinyint, left => castWithOverflowCheck bigint tinyint left
  | pointer, tinyint, left => castFromUint64OverflowCheck tinyint left
  | integer, smallint, left => castWithOverflowCheck integer smallint left
  | bigint, smallint, left => castWithOverflowCheck bigint smallint left
  | pointer, smallint, left => castFromUint64OverflowCheck smallint left
  | bigint, integer, left => castWithOverflowCheck bigint integer left
  -- the type of the check is `uint64_t` here, and the result is converted once more
  | pointer, integer, left => do
    let value ← castFromUint64OverflowCheck pointer left
    return integer.convert (pointer.toInt value)
  | pointer, bigint, left => do
    let value ← castFromUint64OverflowCheck pointer left
    return bigint.convert (pointer.toInt value)
  | tinyint, pointer, left => castToUint64OverflowCheck tinyint left
  | smallint, pointer, left => castToUint64OverflowCheck smallint left
  | integer, pointer, left => castToUint64OverflowCheck integer left
  | bigint, pointer, left => castToUint64OverflowCheck bigint left
  | src, dst, left => return dst.convert (src.toInt left)

end Cast

end DuckDB
