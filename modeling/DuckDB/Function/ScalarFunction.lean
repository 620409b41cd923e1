import DuckDB.Common.VectorOperations

/-!
# Functions on strings

`concat_function` and `substring_function` (`function/scalar_function/`). `Initialize` gives the
result new entries, whose contents are not set.
-/

open DuckDB.Vector

namespace DuckDB

/-- `concat_function`. -/
def concatFunction (input1 input2 result : Vector (Option (List UInt8))) :
    Option (Vector (Option (List UInt8))) :=
  binaryExec input1 input2
    { result with nullmask := fun i => input1.nullmask i || input2.nullmask i }
    fun input1Index input2Index e =>
      if e.2 then some e
      else do
        let string1 ← input1.data input1Index
        let string2 ← input2.data input2Index
        return (some (string1 ++ string2), e.2)

/-- The loop of `substring_function` over the bytes of the input and its terminator. A read behind
the terminator has no result. -/
def substringLoop (offset length : ℕ) : ℕ → List UInt8 → Option (List UInt8)
  | _, [] => none
  | inputCharOffset, b :: rest =>
    if b = 0 then some []
    else
      let inputCharOffset := if b &&& 0xC0 ≠ 0x80 then inputCharOffset + 1 else inputCharOffset
      if inputCharOffset > (offset + length) % 18446744073709551616 then some []
      else if inputCharOffset > offset then
        (substringLoop offset length inputCharOffset rest).map (b :: ·)
      else substringLoop offset length inputCharOffset rest

/-- The entry that `substring_function` writes. The arguments become numbers of type `size_t`, so
that the test for negative ones never throws. -/
def substringEntry (input : Option (List UInt8) × Bool) (offset length : BitVec 32)
    (e : Option (List UInt8) × Bool) : Option (Option (List UInt8) × Bool) :=
  let offset := ((offset - 1).signExtend 64).toNat
  let length := (length.signExtend 64).toNat
  if input.2 then some e
  else if offset < 0 || length < 0 then none
  else do
    let inputString ← input.1
    let output ← substringLoop offset length 0 (inputString ++ [0])
    return (some output, e.2)

/-- `substring_function`. -/
def substringFunction (input : Vector (Option (List UInt8))) (offset length : Vector (BitVec 32))
    (result : Vector (Option (List UInt8))) : Option (Vector (Option (List UInt8))) :=
  ternaryExec input offset length { result with nullmask := input.nullmask }
    fun inputIndex offsetIndex lengthIndex =>
      substringEntry (input.entry inputIndex) (offset.data offsetIndex) (length.data lengthIndex)

end DuckDB
