import DuckDB.Common.BooleanOperators

/-!
# The expression executor

`ExpressionExecutor::Execute` (`execution/expression_executor.cpp` and the files of
`execution/expression_executor/`) for references to columns, constants, comparisons, conjunctions,
`NOT`, `IS [NOT] NULL`, `[NOT] IN` and `CASE`.
-/

namespace DuckDB.ExpressionExecutor

/-! ### Types -/

/-- The operators of `common/operator/comparison_operators.hpp`. -/
inductive ComparisonOperator where
  | equals
  | notEquals
  | greaterThan
  | greaterThanEquals
  | lessThan
  | lessThanEquals
deriving DecidableEq, Repr

/-- The operator on what `strcmp` returns. -/
def ComparisonOperator.ofOrdering : ComparisonOperator → Ordering → Bool
  | equals => Ordering.isEq
  | notEquals => Ordering.isNe
  | greaterThan => Ordering.isGT
  | greaterThanEquals => Ordering.isGE
  | lessThan => Ordering.isLT
  | lessThanEquals => Ordering.isLE

/-- The numeric types with the comparisons of the machine. -/
structure NumericTypes where
  Index : Type
  Number : Index → Type
  zero : ∀ i, Number i
  compare : ∀ {i}, ComparisonOperator → Number i → Number i → Bool

/-- `TypeId`. -/
inductive TypeId (T : NumericTypes) where
  | boolean
  | number (type : T.Index)
  | varchar

namespace TypeId

variable {T : NumericTypes}

/-- A value that is not NULL; a string is the bytes before its terminator. -/
abbrev Value : TypeId T → Type
  | boolean => Bool
  | number type => T.Number type
  | varchar => List UInt8

/-- An entry of a vector: a truth value is a byte; a string is behind a pointer, which may be
null. -/
abbrev Entry : TypeId T → Type
  | boolean => UInt8
  | number type => T.Number type
  | varchar => Option (List UInt8)

def ofValue : ∀ {t : TypeId T}, t.Value → t.Entry
  | boolean => Bool.toUInt8
  | number _ => id
  | varchar => some

/-- The value of an entry, if there is one to read. -/
def toValue : ∀ {t : TypeId T}, t.Entry → Option t.Value
  | boolean => fun byte => if byte = 0 then some false else if byte = 1 then some true else none
  | number _ => some
  | varchar => id

def compare (op : ComparisonOperator) : ∀ {t : TypeId T}, t.Value → t.Value → Bool
  | boolean => fun left right => op.ofOrdering (Ord.compare left right)
  | number _ => T.compare op
  | varchar => fun left right => op.ofOrdering (List.compareLex Ord.compare left right)

/-- `OP::Operation`. BOOLEAN entries are compared as `int8_t`; `strcmp` reads through both
pointers. -/
def operation (op : ComparisonOperator) : ∀ {t : TypeId T}, t.Entry → t.Entry → Option Bool
  | boolean => fun left right =>
    some (op.ofOrdering (Ord.compare left.toInt8.toInt right.toInt8.toInt))
  | number _ => fun left right => some (T.compare op left right)
  | varchar => fun left right =>
    left.bind fun x => right.map fun y => op.ofOrdering (List.compareLex Ord.compare x y)

/-- The loops for strings leave out the entries that are NULL. -/
def ignoreNull : TypeId T → Bool
  | varchar => true
  | _ => false

/-- `RegularCase::Operation` and, for strings, `AddString`. -/
def caseOperation : ∀ {t : TypeId T}, t.Entry → Option t.Entry
  | boolean => some
  | number _ => some
  | varchar => Option.map some

/-- What a `CASE` leaves under a NULL. -/
def caseNull : ∀ {t : TypeId T}, t.Entry → t.Entry
  | boolean => id
  | number _ => id
  | varchar => fun _ => none

end TypeId

variable {T : NumericTypes} {types : ℕ → TypeId T} {t : TypeId T}

/-! ### Expressions and chunks -/

mutual

/-- The expressions over the columns of a chunk, by their return type. -/
inductive Expression (types : ℕ → TypeId T) : TypeId T → Type where
  | reference (index : ℕ) : Expression types (types index)
  | constant {t : TypeId T} (value : Option t.Value) : Expression types t
  | comparison {t : TypeId T} (op : ComparisonOperator) (left right : Expression types t) :
    Expression types .boolean
  | conjunction (type : Conjunction) (left right : Expression types .boolean) :
    Expression types .boolean
  | not (child : Expression types .boolean) : Expression types .boolean
  | isNull {t : TypeId T} (inverse : Bool) (child : Expression types t) : Expression types .boolean
  | isIn {t : TypeId T} (negated : Bool) (left : Expression types t) (children : Children types t) :
    Expression types .boolean
  | case {t : TypeId T} (check : Expression types .boolean) (ifTrue ifFalse : Expression types t) :
    Expression types t

/-- The right side of an `IN`. -/
inductive Children (types : ℕ → TypeId T) : TypeId T → Type where
  | single {t : TypeId T} (child : Expression types t) : Children types t
  | snoc {t : TypeId T} (children : Children types t) (child : Expression types t) :
    Children types t

end

/-- `DataChunk`. The columns share their selection vector and their number of rows
(`DataChunk::Verify`), and an entry that is not NULL can be read as a value. -/
structure InputChunk (types : ℕ → TypeId T) where
  shape : Shape
  data : ∀ i, Vector (types i).Entry
  shape_data : ∀ i, (data i).shape = shape
  position_lt : ∀ k < shape.count, Vector.position shape.selVector k < standardVectorSize
  isSome_toValue : ∀ i, ∀ k < shape.count, ∀ d ∈ (data i).row k, (TypeId.toValue d).isSome

/-- What the memory holds that is allocated for the vectors of an expression, by the path to the
node. -/
def Memory (T : NumericTypes) : Type :=
  List ℕ → ∀ t : TypeId T, ℕ → t.Entry

namespace Memory

def child (memory : Memory T) (n : ℕ) : Memory T :=
  fun path => memory (n :: path)

/-- `Vector::Initialize`. -/
def vector (memory : Memory T) (t : TypeId T) : Vector t.Entry :=
  { data := memory [] t }

end Memory

/-! ### `Execute` -/

/-- `Vector::Reference` of a value. The constructor of a NULL leaves `value_` as it is. -/
def referenceValue (memory : Memory T) (value : Option t.Value) : Vector t.Entry :=
  { data := match value with
      | some value => fun _ => TypeId.ofValue value
      | none => memory [] t
    nullmask := fun i => i == 0 && value.isNone
    count := 1 }

/-- The functions of `VectorOperations` for comparisons. -/
def compareVectors (op : ComparisonOperator) (left right : Vector t.Entry) (result : Vector UInt8) :
    Option (Vector UInt8) :=
  Vector.templatedBooleanOperation (TypeId.operation op) t.ignoreNull left right result

mutual

/-- `ExpressionExecutor::Execute`. -/
def execute {t : TypeId T} (chunk : InputChunk types) (memory : Memory T) :
    Expression types t → Option (Vector t.Entry)
  | .reference index => some (chunk.data index)
  | .constant value => some (referenceValue memory value)
  | .comparison op left right => do
    let left ← execute chunk (memory.child 0) left
    let right ← execute chunk (memory.child 1) right
    compareVectors op left right (memory.vector .boolean)
  | .conjunction type left right => do
    let left ← execute chunk (memory.child 0) left
    let right ← execute chunk (memory.child 1) right
    Vector.templatedBooleanNullmask type left right (memory.vector .boolean)
  | .not child => do
    let child ← execute chunk (memory.child 0) child
    Vector.not child (memory.vector .boolean)
  | .isNull inverse child => do
    let child ← execute chunk (memory.child 0) child
    Vector.isNullLoop inverse child (memory.vector .boolean)
  | .isIn negated left children => do
    let left ← execute chunk (memory.child 0) left
    let intermediate ← executeChildren chunk (memory.child 1) left children
    if negated then Vector.not intermediate (memory.vector .boolean) else return intermediate
  | .case check ifTrue ifFalse => do
    let check ← execute chunk (memory.child 0) check
    let resTrue ← execute chunk (memory.child 1) ifTrue
    let resFalse ← execute chunk (memory.child 2) ifFalse
    Vector.caseLoop TypeId.caseOperation TypeId.caseNull check resTrue resFalse (memory.vector _)

/-- The loop over the right side of an `IN`. -/
def executeChildren {t : TypeId T} (chunk : InputChunk types) (memory : Memory T)
    (left : Vector t.Entry) : Children types t → Option (Vector UInt8)
  | .single child => do
    let vectorToCheck ← execute chunk (memory.child 0) child
    compareVectors .equals left vectorToCheck (memory.vector .boolean)
  | .snoc children child => do
    let intermediate ← executeChildren chunk (memory.child 1) left children
    let vectorToCheck ← execute chunk (memory.child 0) child
    let compRes ← compareVectors .equals left vectorToCheck ((memory.child 2).vector .boolean)
    Vector.templatedBooleanNullmask .or intermediate compRes (memory.vector .boolean)

end

end DuckDB.ExpressionExecutor
