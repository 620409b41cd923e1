import DuckDB.Common.Serializer
import DuckDB.Common.Types

/-!
# Values

`class Value` (`common/types/value.cpp`): how a value is stored, and the check of the bytes of a
string.

A value of a type of fixed size is the bits of the member of the union that belongs to its type.
The string of a `VARCHAR` may hold any bytes.
-/

namespace DuckDB

open Theory Serializer Deserializer

/-! ### Numbers of types -/

/-- The number of a type. -/
def TypeId.number : TypeId → ℕ
  | invalid => 0
  | boolean => 1
  | tinyint => 2
  | smallint => 3
  | integer => 4
  | bigint => 5
  | pointer => 6
  | float => 7
  | double => 8
  | varchar => 9
  | varbinary => 10

/-- The type with this number. -/
def TypeId.ofNumber : ℕ → Option TypeId
  | 0 => some invalid
  | 1 => some boolean
  | 2 => some tinyint
  | 3 => some smallint
  | 4 => some integer
  | 5 => some bigint
  | 6 => some pointer
  | 7 => some float
  | 8 => some double
  | 9 => some varchar
  | 10 => some varbinary
  | _ => none

/-- `Read<TypeId>`. -/
def TypeId.deserialize : Deserializer TypeId := do
  let n ← read 1
  match TypeId.ofNumber n with
  | some type => pure type
  | none => throw .assertion

/-! ### Values -/

/-- `class Value`. -/
inductive Value where
  | null (type : TypeId)
  | invalid
  | boolean (val : BitVec 8)
  | tinyint (val : BitVec 8)
  | smallint (val : BitVec 16)
  | integer (val : BitVec 32)
  | bigint (val : BitVec 64)
  | pointer (val : BitVec 64)
  | float (val : BitVec 32)
  | double (val : BitVec 64)
  | varchar (val : List UInt8)
  | varbinary (val : List UInt8)
deriving DecidableEq, Repr

namespace Value

/-- `type`. -/
def type : Value → TypeId
  | null type => type
  | invalid => .invalid
  | boolean _ => .boolean
  | tinyint _ => .tinyint
  | smallint _ => .smallint
  | integer _ => .integer
  | bigint _ => .bigint
  | pointer _ => .pointer
  | float _ => .float
  | double _ => .double
  | varchar _ => .varchar
  | varbinary _ => .varbinary

/-- `is_null`. -/
def isNull : Value → Bool
  | null _ => true
  | _ => false

/-- A `float` as a `double`: one bit for the sign, then 8 or 11 bits for the exponent, whose bias is
127 or 1023, and 23 or 52 bits for the fraction. -/
def floatToDouble (val : BitVec 32) : BitVec 64 :=
  let exponent := (val.extractLsb' 23 8).toNat
  let fraction := (val.extractLsb' 0 23).toNat
  let magnitude :=
    if exponent = 255 then 2047 * 2 ^ 52 + fraction * 2 ^ 29
    else if exponent ≠ 0 then (exponent + 896) * 2 ^ 52 + fraction * 2 ^ 29
    else if fraction = 0 then 0
    else
      -- a subnormal number gets an exponent of its own
      (fraction.log2 + 874) * 2 ^ 52 + (fraction - 2 ^ fraction.log2) * 2 ^ (52 - fraction.log2)
  BitVec.ofNat 64 ((if val.msb then 2 ^ 63 else 0) + magnitude)

/-- The part of `Value::Serialize` behind the type and the null flag. -/
def serializeData : Value → Except Exception (List UInt8)
  | null _ => return []
  | boolean val => return writeBits val
  | tinyint val => return writeBits val
  | smallint val => return writeBits val
  | integer val => return writeBits val
  | bigint val => return writeBits val
  -- `Write<double>(value_.float_)`
  | float val => return writeBits (floatToDouble val)
  | double val => return writeBits val
  | pointer val => return writeBits val
  | varchar val => return writeBytes val
  | invalid | varbinary _ =>
    throw (.notImplementedException "Value type not implemented for serialization!")

/-- `Value::Serialize`. -/
def serialize (value : Value) : Except Exception (List UInt8) := do
  let data ← value.serializeData
  return write 1 value.type.number ++ (write 1 value.isNull.toNat ++ data)

/-- The part of `Value::Deserialize` behind the type and the null flag. -/
def deserializeData : TypeId → Deserializer Value
  | .boolean => do let val ← readBits 8; pure (boolean val)
  | .tinyint => do let val ← readBits 8; pure (tinyint val)
  | .smallint => do let val ← readBits 16; pure (smallint val)
  | .integer => do let val ← readBits 32; pure (integer val)
  | .bigint => do let val ← readBits 64; pure (bigint val)
  -- `Read<float>()`
  | .float => do let val ← readBits 32; pure (float val)
  | .double => do let val ← readBits 64; pure (double val)
  | .pointer => do let val ← readBits 64; pure (pointer val)
  | .varchar => do let val ← readBytes; pure (varchar val)
  | .invalid | .varbinary =>
    throw (.notImplementedException "Value type not implemented for deserialization")

/-- `Value::Deserialize`. -/
def deserialize : Deserializer Value := do
  let type ← TypeId.deserialize
  let isNull ← read 1
  if isNull ≠ 0 then pure (null type) else deserializeData type

/-! ### The check of a string -/

/-- The loop of `IsUTF8String`, where `s` points to the first of the bytes. A read behind them has
no result. -/
def isUTF8Loop : List UInt8 → Option Bool
  | [] => none
  | c :: s =>
    if c = 0 then some true
    else if c &&& 0x80 = 0 then isUTF8Loop s
    else
      match s with
      | [] => none
      | c₁ :: s =>
        if c₁ &&& 0xC0 ≠ 0x80 then some false
        else if c &&& 0xE0 = 0xC0 then isUTF8Loop s
        else
          match s with
          | [] => none
          | c₂ :: s =>
            if c₂ &&& 0xC0 ≠ 0x80 then some false
            else if c &&& 0xF0 = 0xE0 then isUTF8Loop s
            else
              match s with
              | [] => none
              | c₃ :: s =>
                if c₃ &&& 0xC0 ≠ 0x80 then some false
                else if c &&& 0xF8 = 0xF0 then isUTF8Loop s
                else some false

/-- The test for `str_nil`: the second byte is read only if the first one is right. -/
def isStrNil (s : List UInt8) : Option Bool := do
  let c ← s[0]?
  if c = 0x80 then
    let c ← s[1]?
    return c = 0
  else
    return false

/-- `Value::IsUTF8String`, where `none` is the null pointer. -/
def isUTF8String : Option (List UInt8) → Option Bool
  | none => some true
  | some s => do
    let nil ← isStrNil s
    if nil then return true else isUTF8Loop s

end Value

end DuckDB
