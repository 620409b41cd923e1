import DuckDB.Common.Value
import Mathlib.Logic.Function.Basic

/-!
# Vectors and chunks in storage

`CopyToStorage` and `AppendFromStorage` (`common/vector_operations/`) and the stored form of a
`DataChunk` (`common/types/data_chunk.cpp`).

The data of a vector has a null mask; in storage a NULL is a value of the type, `NullValue<T>()`.
The entries of a `VARCHAR` vector are pointers to strings of bytes without a terminator inside, or
null pointers. Numbers with a fraction are compared by their bits: no other bits stand for the
smallest normal number.
-/

namespace DuckDB

open Theory Serializer Deserializer

/-! ### Vectors -/

/-- `class Vector`: entries, the null mask and the positions of the rows. -/
structure Vector (α : Type) where
  data : ℕ → α
  nullmask : ℕ → Bool := fun _ => false
  selVector : Option (ℕ → ℕ) := none
  count : ℕ := 0

namespace Vector

variable {α : Type}

/-- The position of row `k`. -/
def position (selVector : Option (ℕ → ℕ)) (k : ℕ) : ℕ :=
  match selVector with
  | some selVector => selVector k
  | none => k

/-- `VectorOperations::Exec`. -/
def exec {σ : Type} (selVector : Option (ℕ → ℕ)) (count : ℕ) (fn : ℕ → ℕ → σ → σ) (offset : ℕ)
    (s : σ) : σ :=
  (List.range' offset (count - offset)).foldl (fun s k => fn (position selVector k) k s) s

/-- `copy_function`. -/
def copyFunction (source target : ℕ → α) (offset count : ℕ) (selVector : Option (ℕ → ℕ)) : ℕ → α :=
  exec selVector (count + offset)
    (fun i k target => Function.update target (k - offset) (source i)) offset target

/-- `copy_function_set_null`. -/
def copyFunctionSetNull (nullValue : α) (source target : ℕ → α) (offset count : ℕ)
    (selVector : Option (ℕ → ℕ)) (nullmask : ℕ → Bool) : ℕ → α :=
  if (List.range standardVectorSize).any nullmask then
    exec selVector (count + offset) (fun i k target =>
        Function.update target (k - offset) (if nullmask i then nullValue else source i))
      offset target
  else
    copyFunction source target offset count selVector

/-- `VectorOperations::CopyToStorage`. -/
def copyToStorage (nullValue : α) (source : Vector α) (target : ℕ → α) (offset elementCount : ℕ) :
    ℕ → α :=
  if source.count = 0 then target
  else
    let elementCount := if elementCount = 0 then source.count else elementCount
    copyFunctionSetNull nullValue source.data target offset elementCount source.selVector
      source.nullmask

/-- `append_function`. -/
def appendFunction [DecidableEq α] (nullValue : α) (source : ℕ → α) (count : ℕ)
    (selVector : Option (ℕ → ℕ)) (rightOffset : ℕ) :
    (ℕ → α) × (ℕ → Bool) → (ℕ → α) × (ℕ → Bool) :=
  exec selVector count (fun i k (target, nullmask) =>
      (Function.update target (rightOffset + k) (source i),
        if source i = nullValue then Function.update nullmask (rightOffset + k) true else nullmask))
    0

/-- `VectorOperations::AppendFromStorage`. -/
def appendFromStorage [DecidableEq α] (nullValue : α) (source target : Vector α) :
    Except Exception (Vector α) :=
  if source.count = 0 then return target
  else if source.count + target.count > standardVectorSize then
    throw (.exception "Trying to append past STANDARD_VECTOR_SIZE!")
  else
    let (data, nullmask) := appendFunction nullValue source.data source.count source.selVector
      target.count (target.data, target.nullmask)
    return { target with data, nullmask, count := target.count + source.count }

/-- What row `k` holds. -/
def row (v : Vector α) (k : ℕ) : Option α :=
  if v.nullmask (position v.selVector k) then none else some (v.data (position v.selVector k))

/-- The rows, where `none` is NULL. -/
def rows (v : Vector α) : List (Option α) :=
  (List.range v.count).map v.row

end Vector

/-! ### Columns -/

/-- The types for which `TypeIsConstantSize` holds. -/
inductive ConstantType where
  | boolean
  | tinyint
  | smallint
  | integer
  | bigint
  | pointer
  | float
  | double
deriving DecidableEq, Repr

namespace ConstantType

def typeId : ConstantType → TypeId
  | boolean => .boolean
  | tinyint => .tinyint
  | smallint => .smallint
  | integer => .integer
  | bigint => .bigint
  | pointer => .pointer
  | float => .float
  | double => .double

/-- `GetTypeIdSize`, in bits. -/
def width : ConstantType → ℕ
  | boolean => 8
  | tinyint => 8
  | smallint => 16
  | integer => 32
  | bigint => 64
  | pointer => 64
  | float => 32
  | double => 64

/-- `NullValue<T>`: `std::numeric_limits<T>::min()`. -/
def nullValue : (type : ConstantType) → BitVec type.width
  | boolean => BitVec.intMin 8
  | tinyint => BitVec.intMin 8
  | smallint => BitVec.intMin 16
  | integer => BitVec.intMin 32
  | bigint => BitVec.intMin 64
  | pointer => 0#64
  | float => 0x00800000#32
  | double => 0x0010000000000000#64

/-- The value with these bits. -/
def value : (type : ConstantType) → BitVec type.width → Value
  | boolean => Value.boolean
  | tinyint => Value.tinyint
  | smallint => Value.smallint
  | integer => Value.integer
  | bigint => Value.bigint
  | pointer => Value.pointer
  | float => Value.float
  | double => Value.double

/-- The value of a row. -/
def rowValue (type : ConstantType) : Option (BitVec type.width) → Value
  | some val => type.value val
  | none => .null type.typeId

end ConstantType

/-- `str_nil`. -/
def strNil : List UInt8 := [0x80]

/-- The value of a row of a `VARCHAR` vector. -/
def varcharValue : Option (Option (List UInt8)) → Value
  | some val => .varchar (val.getD [])
  | none => .null .varchar

/-- A vector of one of the types. -/
inductive Column where
  | constant (type : ConstantType) (vector : Vector (BitVec type.width))
  | varchar (vector : Vector (Option (List UInt8)))

namespace Column

def type : Column → TypeId
  | constant type _ => type.typeId
  | varchar _ => .varchar

def count : Column → ℕ
  | constant _ vector => vector.count
  | varchar vector => vector.count

/-- The values of the rows. -/
def values : Column → List Value
  | constant type vector => vector.rows.map type.rowValue
  | varchar vector => vector.rows.map varcharValue

/-- The stored form of a column of `DataChunk::Serialize`. The strings are taken from the first
entries of the vector. -/
def serialize (size : ℕ) : Column → List UInt8
  | constant type vector =>
    let ptr := vector.copyToStorage type.nullValue (fun _ => 0) 0 0
    (List.range size).flatMap fun j => writeBits (ptr j)
  | varchar vector =>
    (List.range size).flatMap fun j =>
      match vector.data j with
      | some source => writeBytes source
      | none => writeBytes strNil

/-- The entry and the mark for a string that `DataChunk::Deserialize` has read. -/
def readEntry (str : List UInt8) : Option (List UInt8) × Bool :=
  if str.takeWhile (· ≠ 0) = strNil then (none, true) else (some (str.takeWhile (· ≠ 0)), false)

/-- A column of a constant size, from the data in the blob. -/
def ofStorage (rows : ℕ) (type : ConstantType) (data : List (BitVec type.width)) :
    Except Exception Column := do
  let source : Vector (BitVec type.width) := { data := fun j => data.getD j 0, count := rows }
  let vector ← Vector.appendFromStorage type.nullValue source { data := fun _ => 0 }
  return constant type { vector with count := rows }

/-- A column of strings, from the strings in the blob. -/
def ofStrings (rows : ℕ) (strings : List (List UInt8)) : Column :=
  let entry (j : ℕ) := readEntry (strings.getD j [])
  varchar { data := fun j => (entry j).1, nullmask := fun j => (entry j).2, count := rows }

/-- The column of a constant size that `DataChunk::Deserialize` reads. -/
def deserializeConstant (rows : ℕ) (type : ConstantType) : Deserializer Column := do
  let data ← readMany (readBits type.width) rows
  match ofStorage rows type data with
  | .ok column => pure column
  | .error e => throw e

/-- The part of `DataChunk::Deserialize` that reads a column. -/
def deserialize (rows : ℕ) : TypeId → Deserializer Column
  | .boolean => deserializeConstant rows .boolean
  | .tinyint => deserializeConstant rows .tinyint
  | .smallint => deserializeConstant rows .smallint
  | .integer => deserializeConstant rows .integer
  | .bigint => deserializeConstant rows .bigint
  | .pointer => deserializeConstant rows .pointer
  | .float => deserializeConstant rows .float
  | .double => deserializeConstant rows .double
  | .varchar | .varbinary => do
    let strings ← readMany readBytes rows
    pure (ofStrings rows strings)
  -- `Initialize` throws
  | .invalid => throw (.conversionException "Invalid TypeId 0")

end Column

/-! ### Chunks -/

/-- `class DataChunk`, column by column. -/
structure ColumnChunk where
  columns : List Column

namespace ColumnChunk

/-- `size`. -/
def size (chunk : ColumnChunk) : ℕ :=
  match chunk.columns with
  | [] => 0
  | column :: _ => column.count

/-- The values of the rows of each column. -/
def values (chunk : ColumnChunk) : List (List Value) :=
  chunk.columns.map Column.values

/-- `DataChunk::Serialize`. -/
def serialize (chunk : ColumnChunk) : List UInt8 :=
  write 2 chunk.size ++ (write 8 chunk.columns.length ++
    (chunk.columns.flatMap (fun column => write 4 column.type.number) ++
      chunk.columns.flatMap (Column.serialize chunk.size)))

/-- A type that `DataChunk::Deserialize` reads. -/
def readType : Deserializer TypeId := do
  let n ← read 4
  match TypeId.ofNumber n with
  | some type => pure type
  | none => throw (.conversionException ("Invalid TypeId " ++ toString n))

/-- The columns that `DataChunk::Deserialize` reads. -/
def deserializeColumns (rows : ℕ) : List TypeId → Deserializer (List Column)
  | [] => pure []
  | type :: types => do
    let column ← Column.deserialize rows type
    let columns ← deserializeColumns rows types
    pure (column :: columns)

/-- `DataChunk::Deserialize`. -/
def deserialize : Deserializer ColumnChunk := do
  let rows ← read 2
  let columnCount ← read 8
  let types ← readMany readType columnCount
  let columns ← deserializeColumns rows types
  pure { columns }

end ColumnChunk

end DuckDB
