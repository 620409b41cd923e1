import DuckDB.Common.Constants
import DuckDB.Theory.Codec

/-!
# Serializers

`Serializer` appends to a buffer of bytes and `Deserializer` reads from one
(`common/serializer.hpp`). A number of `width` bytes is stored with its lowest byte first; what does
not fit is cut off. A text is stored as its UTF-8 bytes behind their number.
-/

namespace DuckDB

open Theory

/-- `class Deserializer`: the bytes that are left. -/
abbrev Deserializer := Reader Exception UInt8

namespace Serializer

/-- `Write<T>`, for a type of `width` bytes. -/
def write (width n : ℕ) : List UInt8 :=
  digits width n

/-- `WriteString`. -/
def writeString (val : String) : List UInt8 :=
  write 4 val.utf8ByteSize ++ val.toUTF8.data.toList

/-- `Write<T>`, for a type of `w` bits. -/
def writeBits {w : ℕ} (val : BitVec w) : List UInt8 :=
  write (w / 8) val.toNat

/-- `WriteString`, for a `string` that need not be a text. -/
def writeBytes (val : List UInt8) : List UInt8 :=
  write 4 val.length ++ val

/-- `WriteList`. -/
def writeList {α : Type} (serialize : α → List UInt8) (list : List α) : List UInt8 :=
  write 4 list.length ++ list.flatMap serialize

end Serializer

namespace Deserializer

/-- `ReadData`. -/
def readData (dataSize : ℕ) : Deserializer (List UInt8) :=
  takeExactly (.serializationException "Failed to deserialize object") dataSize

/-- `Read<T>`, for a type of `width` bytes. -/
def read (width : ℕ) : Deserializer ℕ := do
  let data ← readData width
  pure (ofDigits data)

/-- `Read<string>`. A `string` of the source may hold bytes that are no text. -/
def readString : Deserializer String := do
  let size ← read 4
  let data ← readData size
  match String.fromUTF8? ⟨data.toArray⟩ with
  | some val => pure val
  | none => throw (.exception "String value is not valid UTF8")

/-- `Read<T>`, for a type of `w` bits. -/
def readBits (w : ℕ) : Deserializer (BitVec w) := do
  let n ← read (w / 8)
  pure (BitVec.ofNat w n)

/-- `Read<string>`, whatever bytes the `string` holds. -/
def readBytes : Deserializer (List UInt8) := do
  let size ← read 4
  readData size

/-- `ReadList`. -/
def readList {α : Type} (deserialize : Deserializer α) : Deserializer (List α) := do
  let count ← read 4
  readMany deserialize count

end Deserializer

end DuckDB
