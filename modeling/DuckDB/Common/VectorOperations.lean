import DuckDB.Common.DataChunk

/-!
# Loops over vectors

`IsConstant` (`common/types/vector.hpp`), and `Exec`, `BinaryExec` and `TernaryExec`
(`common/vector_operations/vector_operations.hpp`) for loops that write one entry of the result in
each iteration.
-/

namespace DuckDB

/-- The selection vector and the number of rows of a vector. -/
structure Shape where
  selVector : Option (ℕ → ℕ)
  count : ℕ

namespace Shape

/-- `IsConstant`. -/
def isConstant (shape : Shape) : Bool :=
  shape.count = 1 && shape.selVector.isNone

/-- The shape of the result: the one of the first input that is not a constant. -/
def ofInputs (inputs : List Shape) : Shape :=
  (inputs.find? (!·.isConstant)).getD ⟨none, 1⟩

end Shape

namespace Vector

variable {α β γ δ : Type}

def shape (v : Vector α) : Shape :=
  ⟨v.selVector, v.count⟩

def setShape (v : Vector α) (shape : Shape) : Vector α :=
  { v with selVector := shape.selVector, count := shape.count }

/-- An entry and its bit in the null mask. -/
def entry (v : Vector α) (i : ℕ) : α × Bool :=
  (v.data i, v.nullmask i)

def setEntry (v : Vector α) (i : ℕ) (e : α × Bool) : Vector α :=
  { v with
    data := Function.update v.data i e.1
    nullmask := Function.update v.nullmask i e.2 }

/-- An iteration of a loop whose body gives the new entry. There is none if the body reads through
a null pointer or makes a division that the machine traps. -/
def runRow (body : ℕ → α × Bool → Option (α × Bool)) (i : ℕ) (result : Option (Vector α)) :
    Option (Vector α) := do
  let result ← result
  let e ← body i (result.entry i)
  return result.setEntry i e

/-- `VectorOperations::Exec` for such a loop. -/
def forRows (shape : Shape) (body : ℕ → α × Bool → Option (α × Bool)) (result : Vector α) :
    Option (Vector α) :=
  exec shape.selVector shape.count (fun i _ => runRow body i) 0 (some result)

/-- The factor of the index: a constant has its only entry at 0. -/
def mul (v : Vector α) : ℕ :=
  if v.shape.isConstant then 0 else 1

/-- `VectorOperations::BinaryExec`. -/
def binaryExec (a : Vector α) (b : Vector β) (result : Vector γ)
    (fn : ℕ → ℕ → γ × Bool → Option (γ × Bool)) : Option (Vector γ) :=
  let shape := Shape.ofInputs [a.shape, b.shape]
  forRows shape (fun i => fn (a.mul * i) (b.mul * i)) (result.setShape shape)

/-- `VectorOperations::TernaryExec`. -/
def ternaryExec (a : Vector α) (b : Vector β) (c : Vector γ) (result : Vector δ)
    (fn : ℕ → ℕ → ℕ → δ × Bool → Option (δ × Bool)) : Option (Vector δ) :=
  let shape := Shape.ofInputs [a.shape, b.shape, c.shape]
  forRows shape (fun i => fn (a.mul * i) (b.mul * i) (c.mul * i)) (result.setShape shape)

end Vector

end DuckDB
